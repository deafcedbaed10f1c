-- Readers while updates are handed over. A call of UpdateEdge locates its
-- records and submits the updates later; a point read asks the pending values for
-- the record that is the newest one, a scan copies the pending values of a source
-- bucket by bucket; both look at the handed-over updates afterwards.
import RichGraph.UpdateVisibility
import Mathlib.Data.List.MinMax

namespace RichGraph.UpdateReads

open PropertyUpdateManager

/-! ## The state -/

/-- A node or an edge: a pending key without its property. -/
structure ObjectKey where
  kind : PropertyObjectKind
  shardId : Nat
  src : Nat
  dst : Nat
  isOut : Bool
  edgeType : UInt8
  deriving DecidableEq

def objectOf (k : PendingKey) : ObjectKey :=
  ⟨k.kind, k.shardId, k.src, k.dst, k.isOut, k.edgeType⟩

/-- What a scan asks `SnapshotForSource` for. -/
structure Source where
  kind : PropertyObjectKind
  shardId : Nat
  propertyId : Nat
  src : Nat
  isOut : Bool
  edgeType : UInt8
  deriving DecidableEq

def Source.key (c : Source) (dst : Nat) : PendingKey :=
  ⟨c.kind, c.shardId, c.propertyId, c.src, dst, c.isOut, c.edgeType⟩

structure Options where
  manager : PropertyUpdateOptions
  /-- `PendingKeyHash` -/
  hash : PendingKey → Nat

def kPendingBucketCount : Nat := 64

def pendingBucketIndex (o : Options) (k : PendingKey) : Nat := o.hash k % kPendingBucketCount

/-- What a point read does next. -/
inductive Phase where
  | locate
  | lookupExact (base : Nat)
  | published
  deriving DecidableEq

/-- A running point read. `known` are the updates that were acknowledged when it started. -/
structure Reader where
  key : PendingKey
  known : List Delta
  phase : Phase

/-- What a point read has found for the record with the sequence `base`: a commit and a value. -/
structure Answer where
  key : PendingKey
  base : Nat
  known : List Delta
  found : Option (Nat × Bytes)
  deriving DecidableEq

/-- A running scan, with the number of buckets that it has copied. -/
structure Scan where
  source : Source
  known : List Delta
  buckets : Nat
  snapshot : Nat → Option PendingValue

/-- What a scan has captured: the pending values by destination, and the handed-over updates. -/
structure Captured where
  source : Source
  known : List Delta
  snapshot : Nat → Option PendingValue
  views : List Delta

/-- `current` is the sequence of the newest record of a node or an edge; `calls` are the calls of
`UpdateEdge` and `UpdateNode` that have not submitted their updates. -/
structure State where
  manager : PropertyUpdateManager.State
  current : ObjectKey → Option Nat
  calls : List (List BufferedPropertyUpdate)
  readers : List Reader
  answers : List Answer
  scans : List Scan
  captured : List Captured

def initial (o : Options) (initialCommitSequence : Nat) : State :=
  ⟨PropertyUpdateManager.initial o.manager initialCommitSequence, fun _ => none, [], [], [], [], []⟩

/-! ## Writes -/

/-- A put of a record. `LocateEdge` finds the one with the greatest sequence. -/
def put (k : ObjectKey) (sequence : Nat) (s : State) : State :=
  { s with current :=
      Function.update s.current k (some (max ((s.current k).getD 0) sequence)) }

def ObjectKey.record (k : ObjectKey) (base : Nat) : RecordId :=
  ⟨k.src, k.dst, base, k.isOut, k.edgeType⟩

/-- A call locates its record in one more shard. Without a record it returns. -/
def locate (i : Nat) (k : ObjectKey) (targetId : Nat) (inMemtable : Bool)
    (properties : List (Nat × Bytes)) (s : State) : Option State :=
  s.calls[i]?.map fun updates =>
    match s.current k with
    | none => { s with calls := s.calls.eraseIdx i }
    | some base =>
      let located := properties.map
        (bufferedUpdate k.kind k.shardId targetId inMemtable (k.record base))
      { s with calls := s.calls.set i (updates ++ located) }

/-- A call submits the updates of the records that it has located. -/
def submit (o : Options) (i : Nat) (s : State) : Option State :=
  s.calls[i]?.map fun updates =>
    { s with
      calls := s.calls.eraseIdx i
      manager := s.manager.submitBatch o.manager updates }

/-! ## Point reads -/

/-- What the callbacks have published for a record: the update with the largest commit. -/
def published (passed : List Delta) (k : PendingKey) (base : Nat) : Option Delta :=
  (passed.filter fun x => Delta.key x = k ∧ x.2.baseSequence = base).argmax
    fun x => x.2.commitSequence

/-- `LookupLatest`, the first thing that `GetEdge` does for a property. -/
def lookupLatest (k : PendingKey) (s : State) : State :=
  { s with readers := s.readers ++
      [⟨k, s.manager.acknowledged, if (s.manager.pending k).isSome then .locate else .published⟩] }

/-- `LocateEdgeProperty` -/
def locateRecord (i : Nat) (s : State) : Option State :=
  match s.readers[i]? with
  | some ⟨k, known, .locate⟩ =>
    some { s with readers := s.readers.set i ⟨k, known,
      match s.current (objectOf k) with
      | none => .published
      | some base => .lookupExact base⟩ }
  | _ => none

/-- `LookupExact`: the pending value when it is for the located record. -/
def lookupExact (i : Nat) (s : State) : Option State :=
  match s.readers[i]? with
  | some ⟨k, known, .lookupExact base⟩ =>
    match (s.manager.pending k).filter fun v => v.baseSequence = base with
    | some v =>
      some { s with
        readers := s.readers.eraseIdx i
        answers := s.answers ++ [⟨k, base, known, some (v.commitSequence, v.value)⟩] }
    | none => some { s with readers := s.readers.set i ⟨k, known, .published⟩ }
  | _ => none

/-- `LSMStore::GetEdge`: the record is found again, and then what was published for it. -/
def readPublished (i : Nat) (s : State) : Option State :=
  match s.readers[i]? with
  | some ⟨k, known, .published⟩ =>
    match s.current (objectOf k) with
    | none => some { s with readers := s.readers.eraseIdx i }
    | some base =>
      some { s with
        readers := s.readers.eraseIdx i
        answers := s.answers ++ [⟨k, base, known,
          (published s.manager.passed k base).map fun x => (x.2.commitSequence, x.2.value)⟩] }
  | _ => none

/-! ## Scans -/

def startScan (c : Source) (s : State) : State :=
  { s with scans := s.scans ++ [⟨c, s.manager.acknowledged, 0, fun _ => none⟩] }

/-- One turn of the loop of `SnapshotForSource`, under the lock of its bucket. -/
def snapshotBucket (o : Options) (i : Nat) (s : State) : Option State :=
  match s.scans[i]? with
  | none => none
  | some c =>
    if c.buckets < kPendingBucketCount then
      let snapshot := fun dst =>
        if pendingBucketIndex o (c.source.key dst) = c.buckets then
          s.manager.pending (c.source.key dst)
        else c.snapshot dst
      some { s with
        scans := s.scans.set i { c with buckets := c.buckets + 1, snapshot := snapshot } }
    else none

/-- The scan captures the delta views. -/
def captureViews (i : Nat) (s : State) : Option State :=
  match s.scans[i]? with
  | none => none
  | some c =>
    if c.buckets = kPendingBucketCount then
      some { s with
        scans := s.scans.eraseIdx i
        captured := s.captured ++ [⟨c.source, c.known, c.snapshot, s.manager.passed⟩] }
    else none

/-! ## Steps -/

inductive Action where
  | put (k : ObjectKey) (sequence : Nat)
  | startUpdate
  | locate (i : Nat) (k : ObjectKey) (targetId : Nat) (inMemtable : Bool)
      (properties : List (Nat × Bytes))
  | submit (i : Nat)
  | manage (a : PropertyUpdateManager.Action)
  | lookupLatest (k : PendingKey)
  | locateRecord (i : Nat)
  | lookupExact (i : Nat)
  | readPublished (i : Nat)
  | startScan (c : Source)
  | snapshotBucket (i : Nat)
  | captureViews (i : Nat)

/-- Updates are submitted by `submit`, and no callback fails. -/
def step (o : Options) (s : State) : Action → Option State
  | .put k sequence => some (put k sequence s)
  | .startUpdate => some { s with calls := s.calls ++ [[]] }
  | .locate i k targetId inMemtable properties => locate i k targetId inMemtable properties s
  | .submit i => submit o i s
  | .manage (.submit _) => none
  | .manage (.callBack _ (some _)) => none
  | .manage a => (PropertyUpdateManager.step o.manager s.manager a).map fun m =>
      { s with manager := m }
  | .lookupLatest k => some (lookupLatest k s)
  | .locateRecord i => locateRecord i s
  | .lookupExact i => lookupExact i s
  | .readPublished i => readPublished i s
  | .startScan c => some (startScan c s)
  | .snapshotBucket i => snapshotBucket o i s
  | .captureViews i => captureViews i s

/-- The batch that a step adds replaces pending values as `R` says, at a call or after a wait. -/
def ReplacesBy (R : Nat → Nat → Prop) (s : State) : Action → Prop
  | .submit i => ∀ updates ∈ s.calls[i]?, Replaces R s.manager.pending updates
  | .manage (.wakeSubmitter k) =>
    ∀ w ∈ s.manager.submitters[k]?, Replaces R s.manager.pending w.batch
  | _ => True

/-! ## What a step does -/

variable {o : Options} {s s' : State} {R : Nat → Nat → Prop} {i : Nat}

theorem locate_cases {k : ObjectKey} {targetId : Nat} {inMemtable : Bool}
    {properties : List (Nat × Bytes)} (hs : locate i k targetId inMemtable properties s = some s') :
    ∃ calls, s' = { s with calls } ∧ ∀ updates ∈ calls, updates ∈ s.calls ∨
      ∃ base ∈ s.current k, ∃ old ∈ s.calls, updates =
        old ++ properties.map
          (bufferedUpdate k.kind k.shardId targetId inMemtable (k.record base)) := by
  obtain ⟨old, hold, rfl⟩ := Option.map_eq_some_iff.mp hs
  cases hc : s.current k with
  | none => exact ⟨_, rfl, fun _ hu => Or.inl (List.mem_of_mem_eraseIdx hu)⟩
  | some base =>
    refine ⟨_, rfl, fun updates hu => ?_⟩
    rcases List.mem_or_eq_of_mem_set hu with hu | hu
    · exact Or.inl hu
    · exact Or.inr ⟨base, rfl, old, List.mem_of_getElem? hold, hu⟩

theorem submit_cases (hs : submit o i s = some s') :
    ∃ updates, s.calls[i]? = some updates ∧ s' = { s with
      calls := s.calls.eraseIdx i
      manager := s.manager.submitBatch o.manager updates } := by
  obtain ⟨updates, hi, rfl⟩ := Option.map_eq_some_iff.mp hs
  exact ⟨updates, hi, rfl⟩

theorem locateRecord_cases (hs : locateRecord i s = some s') :
    ∃ k known, ⟨k, known, .locate⟩ ∈ s.readers ∧
      ((s.current (objectOf k) = none ∧
          s' = { s with readers := s.readers.set i ⟨k, known, .published⟩ }) ∨
        ∃ base, s.current (objectOf k) = some base ∧
          s' = { s with readers := s.readers.set i ⟨k, known, .lookupExact base⟩ }) := by
  unfold locateRecord at hs
  split at hs
  · rename_i k known hi
    cases hs
    refine ⟨k, known, List.mem_of_getElem? hi, ?_⟩
    cases hc : s.current (objectOf k) with
    | none => exact Or.inl ⟨rfl, rfl⟩
    | some base => exact Or.inr ⟨base, rfl, rfl⟩
  · cases hs

theorem lookupExact_cases (hs : lookupExact i s = some s') :
    ∃ k known base, ⟨k, known, .lookupExact base⟩ ∈ s.readers ∧
      ((∃ v ∈ s.manager.pending k, v.baseSequence = base ∧ s' = { s with
          readers := s.readers.eraseIdx i
          answers := s.answers ++ [⟨k, base, known, some (v.commitSequence, v.value)⟩] }) ∨
        (∀ v ∈ s.manager.pending k, v.baseSequence ≠ base) ∧
          s' = { s with readers := s.readers.set i ⟨k, known, .published⟩ }) := by
  unfold lookupExact at hs
  split at hs
  · rename_i k known base hi
    refine ⟨k, known, base, List.mem_of_getElem? hi, ?_⟩
    split at hs
    · rename_i v hv
      cases hs
      obtain ⟨hv, hbase⟩ := Option.filter_eq_some_iff.mp hv
      exact Or.inl ⟨v, hv, of_decide_eq_true hbase, rfl⟩
    · rename_i hnone
      cases hs
      refine Or.inr ⟨fun v hv hbase => ?_, rfl⟩
      rw [hv] at hnone
      simp [hbase] at hnone
  · cases hs

theorem readPublished_cases (hs : readPublished i s = some s') :
    ∃ k known, ⟨k, known, .published⟩ ∈ s.readers ∧
      (s' = { s with readers := s.readers.eraseIdx i } ∨
        ∃ base, s.current (objectOf k) = some base ∧ s' = { s with
          readers := s.readers.eraseIdx i
          answers := s.answers ++ [⟨k, base, known,
            (published s.manager.passed k base).map
              fun x => (x.2.commitSequence, x.2.value)⟩] }) := by
  unfold readPublished at hs
  split at hs
  · rename_i k known hi
    refine ⟨k, known, List.mem_of_getElem? hi, ?_⟩
    split at hs
    · cases hs
      exact Or.inl rfl
    · rename_i base hc
      cases hs
      exact Or.inr ⟨base, hc, rfl⟩
  · cases hs

theorem snapshotBucket_cases (hs : snapshotBucket o i s = some s') :
    ∃ c ∈ s.scans, s' = { s with
      scans := s.scans.set i ⟨c.source, c.known, c.buckets + 1, fun dst =>
        if pendingBucketIndex o (c.source.key dst) = c.buckets then
          s.manager.pending (c.source.key dst)
        else c.snapshot dst⟩ } := by
  unfold snapshotBucket at hs
  split at hs
  · cases hs
  · rename_i c hi
    split at hs
    · cases hs
      exact ⟨c, List.mem_of_getElem? hi, rfl⟩
    · cases hs

theorem captureViews_cases (hs : captureViews i s = some s') :
    ∃ c ∈ s.scans, c.buckets = kPendingBucketCount ∧ s' = { s with
      scans := s.scans.eraseIdx i
      captured := s.captured ++ [⟨c.source, c.known, c.snapshot, s.manager.passed⟩] } := by
  unfold captureViews at hs
  split at hs
  · cases hs
  · rename_i c hi
    split at hs
    · rename_i hall
      cases hs
      exact ⟨c, List.mem_of_getElem? hi, hall, rfl⟩
    · cases hs

/-- A step of the manager that is not a call. -/
theorem manage_cases {a : PropertyUpdateManager.Action} (hs : step o s (.manage a) = some s') :
    (∀ batch, a ≠ .submit batch) ∧
      ∃ m, PropertyUpdateManager.step o.manager s.manager a = some m ∧
        s' = { s with manager := m } := by
  cases a with
  | submit batch => cases hs
  | callBack k error =>
    cases error with
    | some e => cases hs
    | none => exact ⟨by simp, Lib.exists_of_map hs⟩
  | _ => exact ⟨by simp, Lib.exists_of_map hs⟩

/-- The manager stays, or takes one of its own steps. -/
theorem manager_cases {a : Action} (hs : step o s a = some s') :
    s'.manager = s.manager ∨
      ∃ b, PropertyUpdateManager.step o.manager s.manager b = some s'.manager ∧
        ∀ R, ReplacesBy R s a → MaySubmit (Replaces R) s.manager b := by
  cases a with
  | submit i =>
    obtain ⟨updates, hi, rfl⟩ := submit_cases hs
    exact Or.inr ⟨.submit updates, rfl, fun R hok => hok updates hi⟩
  | manage b =>
    obtain ⟨hsubmit, m, hm, rfl⟩ := manage_cases hs
    refine Or.inr ⟨b, hm, fun R hok => ?_⟩
    cases b with
    | submit batch => exact absurd rfl (hsubmit batch)
    | wakeSubmitter k => exact hok
    | _ => trivial
  | locate i k targetId inMemtable properties =>
    obtain ⟨calls, rfl, -⟩ := locate_cases hs
    exact Or.inl rfl
  | locateRecord i =>
    obtain ⟨k, known, -, ⟨-, rfl⟩ | ⟨base, -, rfl⟩⟩ := locateRecord_cases hs
    · exact Or.inl rfl
    · exact Or.inl rfl
  | lookupExact i =>
    obtain ⟨k, known, base, -, ⟨v, -, -, rfl⟩ | ⟨-, rfl⟩⟩ := lookupExact_cases hs
    · exact Or.inl rfl
    · exact Or.inl rfl
  | readPublished i =>
    obtain ⟨k, known, -, rfl | ⟨base, -, rfl⟩⟩ := readPublished_cases hs
    · exact Or.inl rfl
    · exact Or.inl rfl
  | snapshotBucket i =>
    obtain ⟨c, -, rfl⟩ := snapshotBucket_cases hs
    exact Or.inl rfl
  | captureViews i =>
    obtain ⟨c, -, -, rfl⟩ := captureViews_cases hs
    exact Or.inl rfl
  | _ =>
    cases hs
    exact Or.inl rfl

theorem handedOver_step [Std.Refl R] [IsTrans Nat R] {a : Action} (h : HandedOver R s.manager)
    (hok : ReplacesBy R s a) (hs : step o s a = some s') : HandedOver R s'.manager := by
  rcases manager_cases hs with he | ⟨b, hb, hmay⟩
  · rw [he]
    exact h
  · exact PropertyUpdateManager.handedOver_step h (hmay R hok) hb

/-- Nothing is taken back. -/
theorem mem_step {a : Action} (hs : step o s a = some s') :
    (∀ x ∈ s.manager.acknowledged, x ∈ s'.manager.acknowledged) ∧
      ∀ x ∈ s.manager.passed, x ∈ s'.manager.passed := by
  rcases manager_cases hs with he | ⟨b, hb, -⟩
  · rw [he]
    exact ⟨fun _ hx => hx, fun _ hx => hx⟩
  by_cases hcall : ∃ k, b = .callBack k none
  · obtain ⟨k, rfl⟩ := hcall
    obtain ⟨i, groups, g, -, -, he⟩ := callBack_cases hb
    rw [he]
    exact ⟨fun _ hx => hx, fun _ hx => List.mem_append_left _ hx⟩
  · have hgrows := grows_step (fun k hk => hcall ⟨k, hk⟩) hb
    exact ⟨hgrows.acknowledged, fun _ hx => hgrows.passed.symm ▸ hx⟩

/-! ## Scans find every update -/

/-- An update of the record of `x` with a commit that is not smaller. -/
def Covers (x y : Delta) : Prop :=
  Delta.key y = Delta.key x ∧ y.2.baseSequence = x.2.baseSequence ∧
    x.2.commitSequence ≤ y.2.commitSequence

instance (x y : Delta) : Decidable (Covers x y) := inferInstanceAs (Decidable (_ ∧ _ ∧ _))

/-- The snapshot has the update, or a later one of the same record. -/
def InSnapshot (snapshot : Nat → Option PendingValue) (x : Delta) : Prop :=
  ∃ v ∈ snapshot x.2.dst, v.baseSequence = x.2.baseSequence ∧
    x.2.commitSequence ≤ v.commitSequence

instance (snapshot : Nat → Option PendingValue) (x : Delta) : Decidable (InSnapshot snapshot x) :=
  inferInstanceAs (Decidable (∃ v ∈ snapshot x.2.dst, _))

/-- Every update of a record of the source, of whatever sequence, is in the snapshot or in the
views. -/
def Captured.Complete (c : Captured) : Prop :=
  ∀ x ∈ c.known, Delta.key x = c.source.key x.2.dst →
    InSnapshot c.snapshot x ∨ ∃ y ∈ c.views, Covers x y

instance (c : Captured) : Decidable c.Complete := inferInstanceAs (Decidable (∀ _ ∈ _, _))

structure ScanInv (o : Options) (s : State) : Prop where
  handed : HandedOver Eq s.manager
  known : ∀ c ∈ s.scans, ∀ x ∈ c.known, x ∈ s.manager.acknowledged
  scans : ∀ c ∈ s.scans, ∀ x ∈ c.known, Delta.key x = c.source.key x.2.dst →
    pendingBucketIndex o (Delta.key x) < c.buckets →
      InSnapshot c.snapshot x ∨ ∃ y ∈ s.manager.passed, Covers x y
  captured : ∀ c ∈ s.captured, c.Complete

/-- An update is covered by the pending value or by what was handed over. -/
theorem covered_of_handedOver {m : PropertyUpdateManager.State} (h : HandedOver Eq m) {x : Delta}
    (hx : x ∈ m.acknowledged) :
    (∃ v ∈ m.pending (Delta.key x), v.baseSequence = x.2.baseSequence ∧
        x.2.commitSequence ≤ v.commitSequence) ∨ ∃ y ∈ m.passed, Covers x y := by
  rcases h.shown.shown x hx with ⟨v, hv, hbase⟩ | ⟨y, hy, hkey, hle, hbase⟩
  · exact Or.inl ⟨v, hv, hbase.symm, h.shown.newest _ v hv x hx rfl⟩
  · exact Or.inr ⟨y, hy, hkey, hbase.symm, hle⟩

/-- A step that does not touch the scans. -/
theorem ScanInv.of_same {a : Action} (h : ScanInv o s) (hok : ReplacesBy Eq s a)
    (hs : step o s a = some s') (hscans : s'.scans = s.scans)
    (hcaptured : s'.captured = s.captured) : ScanInv o s' := by
  obtain ⟨hack, hpassed⟩ := mem_step hs
  refine ⟨handedOver_step h.handed hok hs, ?_, ?_, ?_⟩
  · rw [hscans]
    exact fun c hc x hx => hack x (h.known c hc x hx)
  · rw [hscans]
    intro c hc x hx hkey hlt
    exact (h.scans c hc x hx hkey hlt).imp id fun ⟨y, hy, hcov⟩ => ⟨y, hpassed y hy, hcov⟩
  · rw [hcaptured]
    exact h.captured

theorem scanInv_snapshotBucket (h : ScanInv o s) (hs : snapshotBucket o i s = some s') :
    ScanInv o s' := by
  obtain ⟨c, hc, rfl⟩ := snapshotBucket_cases hs
  refine ⟨h.handed, ?_, ?_, h.captured⟩
  · intro d hd x hx
    rcases List.mem_or_eq_of_mem_set hd with hd | rfl
    · exact h.known d hd x hx
    · exact h.known c hc x hx
  · intro d hd x hx hkey hlt
    rcases List.mem_or_eq_of_mem_set hd with hd | rfl
    · exact h.scans d hd x hx hkey hlt
    -- The update is in the bucket of this turn, or in one of an earlier turn.
    simp only at hx hkey hlt
    by_cases hbucket : pendingBucketIndex o (Delta.key x) = c.buckets
    · refine (covered_of_handedOver h.handed (h.known c hc x hx)).imp ?_ id
      rintro ⟨v, hv, hbase, hle⟩
      refine ⟨v, ?_, hbase, hle⟩
      simp only
      rw [← hkey, if_pos hbucket]
      exact hv
    · refine (h.scans c hc x hx hkey (by omega)).imp ?_ id
      rintro ⟨v, hv, hbase, hle⟩
      refine ⟨v, ?_, hbase, hle⟩
      simp only
      rw [if_neg (hkey ▸ hbucket)]
      exact hv

theorem scanInv_captureViews (h : ScanInv o s) (hs : captureViews i s = some s') :
    ScanInv o s' := by
  obtain ⟨c, hc, hall, rfl⟩ := captureViews_cases hs
  refine ⟨h.handed, fun d hd => h.known d (List.mem_of_mem_eraseIdx hd),
    fun d hd => h.scans d (List.mem_of_mem_eraseIdx hd), fun d hd => ?_⟩
  rcases List.mem_append.mp hd with hd | hd
  · exact h.captured d hd
  · rw [List.mem_singleton.mp hd]
    intro x hx hkey
    refine h.scans c hc x hx hkey ?_
    rw [hall]
    exact Nat.mod_lt _ (by decide)

theorem scanInv_step {a : Action} (h : ScanInv o s) (hok : ReplacesBy Eq s a)
    (hs : step o s a = some s') : ScanInv o s' := by
  cases a with
  | submit i =>
    obtain ⟨updates, -, he⟩ := submit_cases hs
    exact h.of_same hok hs (by rw [he]) (by rw [he])
  | manage b =>
    obtain ⟨-, m, -, he⟩ := manage_cases hs
    exact h.of_same hok hs (by rw [he]) (by rw [he])
  | locate i k targetId inMemtable properties =>
    obtain ⟨calls, he, -⟩ := locate_cases hs
    exact h.of_same hok hs (by rw [he]) (by rw [he])
  | locateRecord i =>
    obtain ⟨k, known, -, ⟨-, he⟩ | ⟨base, -, he⟩⟩ := locateRecord_cases hs
    · exact h.of_same hok hs (by rw [he]) (by rw [he])
    · exact h.of_same hok hs (by rw [he]) (by rw [he])
  | lookupExact i =>
    obtain ⟨k, known, base, -, ⟨v, -, -, he⟩ | ⟨-, he⟩⟩ := lookupExact_cases hs
    · exact h.of_same hok hs (by rw [he]) (by rw [he])
    · exact h.of_same hok hs (by rw [he]) (by rw [he])
  | readPublished i =>
    obtain ⟨k, known, -, he | ⟨base, -, he⟩⟩ := readPublished_cases hs
    · exact h.of_same hok hs (by rw [he]) (by rw [he])
    · exact h.of_same hok hs (by rw [he]) (by rw [he])
  | snapshotBucket i => exact scanInv_snapshotBucket h hs
  | captureViews i => exact scanInv_captureViews h hs
  | startScan c =>
    cases hs
    refine ⟨h.handed, ?_, ?_, h.captured⟩
    · intro d hd x hx
      rcases List.mem_append.mp hd with hd | hd
      · exact h.known d hd x hx
      · rw [List.mem_singleton.mp hd] at hx
        exact hx
    · intro d hd x hx hkey hlt
      rcases List.mem_append.mp hd with hd | hd
      · exact h.scans d hd x hx hkey hlt
      · rw [List.mem_singleton.mp hd] at hlt
        exact absurd hlt (Nat.not_lt_zero _)
  | _ =>
    cases hs
    exact h.of_same hok rfl rfl rfl

/-! ## Point reads find the updates of the newest record -/

/-- Every update that was known when the read started, and is for the record that was read, has
been found, or a later one of the same record. -/
def Answer.Complete (acknowledged : List Delta) (a : Answer) : Prop :=
  ∀ x ∈ a.known, Delta.key x = a.key → x.2.baseSequence = a.base →
    ∃ y ∈ acknowledged, Covers x y ∧ a.found = some (y.2.commitSequence, y.2.value)

instance (acknowledged : List Delta) (a : Answer) : Decidable (a.Complete acknowledged) :=
  inferInstanceAs (Decidable (∀ _ ∈ _, _))

/-- The newest record of an object has a sequence of at least `base`. -/
def AtMost (current : ObjectKey → Option Nat) (k : ObjectKey) (base : Nat) : Prop :=
  ∃ c ∈ current k, base ≤ c

/-- Updates are for records that were put. -/
def Sourced (current : ObjectKey → Option Nat) (x : Delta) : Prop :=
  AtMost current (objectOf (Delta.key x)) x.2.baseSequence

/-- What a running read still may rely on. In its last phase, an update that it knows has been
handed over, unless a newer record was put meanwhile. -/
def Reader.Ok (s : State) (r : Reader) : Prop :=
  match r.phase with
  | .locate => True
  | .lookupExact base => AtMost s.current (objectOf r.key) base ∧
      ∀ x ∈ r.known, Delta.key x = r.key → x.2.baseSequence ≤ base
  | .published => ∀ x ∈ r.known, Delta.key x = r.key →
      (∃ c ∈ s.current (objectOf r.key), x.2.baseSequence < c) ∨
        ∃ y ∈ s.manager.passed, Covers x y

structure ReadInv (s : State) : Prop where
  handed : HandedOver (· ≤ ·) s.manager
  sourced : AllFrom (Sourced s.current) s.manager
  calls : ∀ updates ∈ s.calls, ∀ u ∈ updates, Sourced s.current u.delta
  known : ∀ r ∈ s.readers, ∀ x ∈ r.known, x ∈ s.manager.acknowledged
  readers : ∀ r ∈ s.readers, r.Ok s
  answers : ∀ a ∈ s.answers, a.Complete s.manager.acknowledged

/-- The records only get newer. -/
def Newer (current current' : ObjectKey → Option Nat) : Prop :=
  ∀ k, ∀ c ∈ current k, ∃ c' ∈ current' k, c ≤ c'

theorem Newer.refl (current : ObjectKey → Option Nat) : Newer current current :=
  fun _ c hc => ⟨c, hc, Nat.le_refl c⟩

theorem newer_put (k : ObjectKey) (sequence : Nat) (s : State) :
    Newer s.current (put k sequence s).current := by
  intro k' c hc
  by_cases hk : k' = k
  · subst hk
    refine ⟨_, Function.update_self _ _ _, ?_⟩
    rw [hc]
    exact Nat.le_max_left _ _
  · exact ⟨c, (Function.update_of_ne hk _ _).trans hc, Nat.le_refl c⟩

theorem AtMost.newer {current current' : ObjectKey → Option Nat} {k : ObjectKey} {base : Nat}
    (h : AtMost current k base) (hn : Newer current current') : AtMost current' k base := by
  obtain ⟨c, hc, hle⟩ := h
  obtain ⟨c', hc', hle'⟩ := hn k c hc
  exact ⟨c', hc', Nat.le_trans hle hle'⟩

theorem Reader.Ok.mono {r : Reader} (h : r.Ok s) (hn : Newer s.current s'.current)
    (hpassed : ∀ x ∈ s.manager.passed, x ∈ s'.manager.passed) : r.Ok s' := by
  unfold Reader.Ok at *
  split
  · trivial
  · rename_i base hphase
    rw [hphase] at h
    exact ⟨h.1.newer hn, h.2⟩
  · rename_i hphase
    rw [hphase] at h
    intro x hx hkey
    rcases h x hx hkey with ⟨c, hc, hlt⟩ | ⟨y, hy, hcov⟩
    · obtain ⟨c', hc', hle⟩ := hn _ c hc
      exact Or.inl ⟨c', hc', Nat.lt_of_lt_of_le hlt hle⟩
    · exact Or.inr ⟨y, hpassed y hy, hcov⟩

/-- A step keeps the invariant when the new calls, readers and answers have it. -/
theorem ReadInv.of_step {a : Action} (h : ReadInv s) (hok : ReplacesBy (· ≤ ·) s a)
    (hs : step o s a = some s') (hn : Newer s.current s'.current)
    (hsourced : AllFrom (Sourced s'.current) s'.manager)
    (hcalls : ∀ updates ∈ s'.calls, updates ∈ s.calls ∨
      ∀ u ∈ updates, Sourced s'.current u.delta)
    (hreaders : ∀ r ∈ s'.readers, r ∈ s.readers ∨
      (∀ x ∈ r.known, x ∈ s.manager.acknowledged) ∧ r.Ok s')
    (hanswers : ∀ a ∈ s'.answers, a ∈ s.answers ∨ a.Complete s.manager.acknowledged) :
    ReadInv s' := by
  obtain ⟨hack, hpassed⟩ := mem_step hs
  refine ⟨handedOver_step h.handed hok hs, hsourced, ?_, ?_, ?_, ?_⟩
  · intro updates hu
    rcases hcalls updates hu with hu | hu
    · exact fun u hu' => AtMost.newer (h.calls updates hu u hu') hn
    · exact hu
  · intro r hr x hx
    rcases hreaders r hr with hr | ⟨hknown, -⟩
    · exact hack x (h.known r hr x hx)
    · exact hack x (hknown x hx)
  · intro r hr
    rcases hreaders r hr with hr | ⟨-, hrok⟩
    · exact (h.readers r hr).mono hn hpassed
    · exact hrok
  · intro b hb x hx hkey hbase
    have hb' : b.Complete s.manager.acknowledged := (hanswers b hb).elim (h.answers b) id
    obtain ⟨y, hy, hcov⟩ := hb' x hx hkey hbase
    exact ⟨y, hack y hy, hcov⟩

/-- An update with something else than a pending value of its record that stands for it: it was
handed over, or a newer record was put. -/
theorem ReadInv.handed_or_replaced (h : ReadInv s) {x : Delta} (hx : x ∈ s.manager.acknowledged)
    (hpending : ∀ v ∈ s.manager.pending (Delta.key x), v.baseSequence ≠ x.2.baseSequence) :
    (∃ c ∈ s.current (objectOf (Delta.key x)), x.2.baseSequence < c) ∨
      ∃ y ∈ s.manager.passed, Covers x y := by
  -- What stands for `x` is for a record of the same sequence or of a larger one.
  have hlarger : ∀ y ∈ s.manager.acknowledged, Delta.key y = Delta.key x →
      x.2.baseSequence < y.2.baseSequence →
      ∃ c ∈ s.current (objectOf (Delta.key x)), x.2.baseSequence < c := by
    intro y hy hkey hlt
    obtain ⟨c, hc, hle⟩ := h.sourced.acknowledged y hy
    rw [hkey] at hc
    exact ⟨c, hc, Nat.lt_of_lt_of_le hlt hle⟩
  rcases h.handed.shown.shown x hx with ⟨v, hv, hle⟩ | ⟨y, hy, hkey, hcommit, hle⟩
  · obtain ⟨y, hy, hkey, rfl⟩ := h.handed.shown.known _ v hv
    exact Or.inl (hlarger y hy hkey (Nat.lt_of_le_of_ne hle (hpending _ hv).symm))
  · rcases Nat.lt_or_eq_of_le hle with hlt | heq
    · exact Or.inl (hlarger y (h.handed.together.known.passed y hy) hkey hlt)
    · exact Or.inr ⟨y, hy, hkey, heq.symm, hcommit⟩

theorem published_covers {passed : List Delta} {x y : Delta} (hy : y ∈ passed)
    (hcov : Covers x y) :
    ∃ z ∈ passed, Covers x z ∧
      published passed (Delta.key x) x.2.baseSequence = some z := by
  obtain ⟨hkey, hbase, hle⟩ := hcov
  have hmem : y ∈ passed.filter fun z => Delta.key z = Delta.key x ∧
      z.2.baseSequence = x.2.baseSequence := by
    simp [hy, hkey, hbase]
  unfold published
  cases hz : (passed.filter fun z => Delta.key z = Delta.key x ∧
      z.2.baseSequence = x.2.baseSequence).argmax fun z => z.2.commitSequence with
  | none =>
    rw [List.argmax_eq_none] at hz
    rw [hz] at hmem
    cases hmem
  | some z =>
    have hzmem := List.argmax_mem hz
    simp only [List.mem_filter, decide_eq_true_eq] at hzmem
    have hmax := List.le_of_mem_argmax (f := fun z : Delta => z.2.commitSequence) hmem hz
    exact ⟨z, hzmem.1, ⟨hzmem.2.1, hzmem.2.2, Nat.le_trans hle hmax⟩, rfl⟩

/-- A step of a reader: the records and the manager stay. -/
theorem ReadInv.of_reader (h : ReadInv s) (hcurrent : s'.current = s.current)
    (hmanager : s'.manager = s.manager) (hcalls : s'.calls = s.calls)
    (hreaders : ∀ r ∈ s'.readers, r ∈ s.readers ∨
      (∀ x ∈ r.known, x ∈ s.manager.acknowledged) ∧ r.Ok s')
    (hanswers : ∀ a ∈ s'.answers, a ∈ s.answers ∨ a.Complete s.manager.acknowledged) :
    ReadInv s' where
  handed := hmanager ▸ h.handed
  sourced := by
    rw [hcurrent, hmanager]
    exact h.sourced
  calls := by
    rw [hcalls, hcurrent]
    exact h.calls
  known r hr := by
    rw [hmanager]
    exact (hreaders r hr).elim (h.known r) And.left
  readers r hr := by
    rcases hreaders r hr with hr | ⟨-, hok⟩
    · refine (h.readers r hr).mono ?_ ?_
      · rw [hcurrent]
        exact Newer.refl _
      · rw [hmanager]
        exact fun _ hx => hx
    · exact hok
  answers a ha := by
    rw [hmanager]
    exact (hanswers a ha).elim (h.answers a) id

theorem readInv_lookupLatest {k : PendingKey} (h : ReadInv s) :
    ReadInv (lookupLatest k s) := by
  refine h.of_reader rfl rfl rfl (fun r hr => ?_) fun _ ha => Or.inl ha
  rcases List.mem_append.mp hr with hr | hr
  · exact Or.inl hr
  rw [List.mem_singleton.mp hr]
  refine Or.inr ⟨fun x hx => hx, ?_⟩
  cases hp : s.manager.pending k with
  | some v => simp [Reader.Ok]
  | none =>
    simp only [Reader.Ok, Option.isSome_none, Bool.false_eq_true, if_false]
    intro x hx hkey
    have hnot : ∀ v ∈ s.manager.pending (Delta.key x), v.baseSequence ≠ x.2.baseSequence := by
      rw [hkey, hp]
      intro v hv
      cases hv
    have := h.handed_or_replaced hx hnot
    rw [hkey] at this
    exact this

theorem readInv_locateRecord (h : ReadInv s) (hs : locateRecord i s = some s') :
    ReadInv s' := by
  obtain ⟨k, known, hr, hcases⟩ := locateRecord_cases hs
  have hknown := h.known _ hr
  rcases hcases with ⟨hnone, he⟩ | ⟨base, hbase, he⟩
  · refine h.of_reader (by rw [he]) (by rw [he]) (by rw [he]) (fun r hr' => ?_)
      fun _ ha => Or.inl (by rwa [he] at ha)
    rw [he] at hr'
    rcases List.mem_or_eq_of_mem_set hr' with hr' | rfl
    · exact Or.inl hr'
    · -- Without a record there is no update of it.
      refine Or.inr ⟨hknown, fun x hx hkey => ?_⟩
      obtain ⟨c, hc, -⟩ := h.sourced.acknowledged x (hknown x hx)
      rw [hkey, hnone] at hc
      cases hc
  · refine h.of_reader (by rw [he]) (by rw [he]) (by rw [he]) (fun r hr' => ?_)
      fun _ ha => Or.inl (by rwa [he] at ha)
    rw [he] at hr' ⊢
    rcases List.mem_or_eq_of_mem_set hr' with hr' | rfl
    · exact Or.inl hr'
    · refine Or.inr ⟨hknown, ⟨base, hbase, Nat.le_refl base⟩, fun x hx hkey => ?_⟩
      obtain ⟨c, hc, hle⟩ := h.sourced.acknowledged x (hknown x hx)
      rw [hkey, hbase] at hc
      cases hc
      exact hle

theorem readInv_lookupExact (h : ReadInv s) (hs : lookupExact i s = some s') :
    ReadInv s' := by
  obtain ⟨k, known, base, hr, hcases⟩ := lookupExact_cases hs
  have hknown := h.known _ hr
  rcases hcases with ⟨v, hv, hbase, he⟩ | ⟨hnot, he⟩
  · refine h.of_reader (by rw [he]) (by rw [he]) (by rw [he])
      (fun r hr' => Or.inl ?_) fun b hb => ?_
    · rw [he] at hr'
      exact List.mem_of_mem_eraseIdx hr'
    · rw [he] at hb
      rcases List.mem_append.mp hb with hb | hb
      · exact Or.inl hb
      · rw [List.mem_singleton.mp hb]
        refine Or.inr fun x hx hkey hx' => ?_
        obtain ⟨y, hy, hyk, rfl⟩ := h.handed.shown.known k v hv
        have hle := h.handed.shown.newest k _ hv x (hknown x hx) hkey
        exact ⟨y, hy, ⟨hyk.trans hkey.symm, hbase.trans hx'.symm, hle⟩, rfl⟩
  · refine h.of_reader (by rw [he]) (by rw [he]) (by rw [he]) (fun r hr' => ?_)
      fun _ ha => Or.inl (by rwa [he] at ha)
    rw [he] at hr' ⊢
    rcases List.mem_or_eq_of_mem_set hr' with hr' | rfl
    · exact Or.inl hr'
    refine Or.inr ⟨hknown, fun x hx hkey => ?_⟩
    obtain ⟨⟨c, hc, hle⟩, hmost⟩ := h.readers _ hr
    rcases Nat.lt_or_eq_of_le (hmost x hx hkey) with hlt | heq
    · exact Or.inl ⟨c, hc, Nat.lt_of_lt_of_le hlt hle⟩
    · have hpending : ∀ v ∈ s.manager.pending (Delta.key x),
          v.baseSequence ≠ x.2.baseSequence := by
        rw [hkey, heq]
        exact hnot
      have := h.handed_or_replaced (hknown x hx) hpending
      rw [hkey] at this
      exact this

theorem readInv_readPublished (h : ReadInv s) (hs : readPublished i s = some s') :
    ReadInv s' := by
  obtain ⟨k, known, hr, he | ⟨base, hbase, he⟩⟩ := readPublished_cases hs
  · exact h.of_reader (by rw [he]) (by rw [he]) (by rw [he])
      (fun r hr' => Or.inl (by rw [he] at hr'; exact List.mem_of_mem_eraseIdx hr'))
      fun _ ha => Or.inl (by rwa [he] at ha)
  · refine h.of_reader (by rw [he]) (by rw [he]) (by rw [he])
      (fun r hr' => Or.inl (by rw [he] at hr'; exact List.mem_of_mem_eraseIdx hr')) fun b hb => ?_
    rw [he] at hb
    rcases List.mem_append.mp hb with hb | hb
    · exact Or.inl hb
    rw [List.mem_singleton.mp hb]
    refine Or.inr fun x hx hkey hx' => ?_
    have hread := h.readers _ hr
    rcases hread x hx hkey with ⟨c, hc, hlt⟩ | ⟨y, hy, hcov⟩
    · -- A newer record was put, so this is not the record that was read.
      rw [hbase] at hc
      cases hc
      exact absurd hx' (Nat.ne_of_lt hlt)
    · obtain ⟨z, hz, hcovz, hpublished⟩ := published_covers hy hcov
      simp only at hkey hx'
      rw [hkey, hx'] at hpublished
      refine ⟨z, h.handed.together.known.passed z hz, hcovz, ?_⟩
      simp only [hpublished, Option.map_some]

theorem readInv_step {a : Action} (h : ReadInv s) (hok : ReplacesBy (· ≤ ·) s a)
    (hs : step o s a = some s') : ReadInv s' := by
  cases a with
  | put k sequence =>
    cases hs
    have hnewer := newer_put k sequence s
    exact h.of_step (o := o) hok rfl hnewer (h.sourced.imp fun _ hx => AtMost.newer hx hnewer)
      (fun _ hu => Or.inl hu) (fun _ hr => Or.inl hr) fun _ ha => Or.inl ha
  | startUpdate =>
    cases hs
    refine h.of_step (o := o) hok rfl (Newer.refl _) h.sourced (fun updates hu => ?_)
      (fun _ hr => Or.inl hr) fun _ ha => Or.inl ha
    rcases List.mem_append.mp hu with hu | hu
    · exact Or.inl hu
    · rw [List.mem_singleton.mp hu]
      exact Or.inr fun u hu => by cases hu
  | locate i k targetId inMemtable properties =>
    obtain ⟨calls, he, hcalls⟩ := locate_cases hs
    refine h.of_step hok hs (by rw [he]; exact Newer.refl _) (by rw [he]; exact h.sourced)
      (fun updates hu => ?_) (fun _ hr => Or.inl (by rwa [he] at hr))
      fun _ ha => Or.inl (by rwa [he] at ha)
    rw [he] at hu ⊢
    rcases hcalls updates hu with hu | ⟨base, hbase, old, hold, rfl⟩
    · exact Or.inl hu
    · refine Or.inr fun u hu => ?_
      rcases List.mem_append.mp hu with hu | hu
      · exact h.calls old hold u hu
      · obtain ⟨property, -, rfl⟩ := List.mem_map.mp hu
        exact ⟨base, hbase, Nat.le_refl base⟩
  | submit i =>
    obtain ⟨updates, hi, he⟩ := submit_cases hs
    refine h.of_step hok hs (by rw [he]; exact Newer.refl _) ?_
      (fun u hu => Or.inl (by rw [he] at hu; exact List.mem_of_mem_eraseIdx hu))
      (fun _ hr => Or.inl (by rwa [he] at hr)) fun _ ha => Or.inl (by rwa [he] at ha)
    rw [he]
    exact (allFrom_sections o.manager fun _ _ hx => hx).submitBatch
      (h.calls updates (List.mem_of_getElem? hi)) h.sourced
  | manage b =>
    obtain ⟨hsubmit, m, hm, he⟩ := manage_cases hs
    refine h.of_step hok hs (by rw [he]; exact Newer.refl _) ?_
      (fun u hu => Or.inl (by rwa [he] at hu)) (fun _ hr => Or.inl (by rwa [he] at hr))
      fun _ ha => Or.inl (by rwa [he] at ha)
    rw [he]
    exact h.sourced.of_step (fun _ _ hx => hx) hsubmit hm
  | lookupLatest k =>
    cases hs
    exact readInv_lookupLatest h
  | locateRecord i => exact readInv_locateRecord h hs
  | lookupExact i => exact readInv_lookupExact h hs
  | readPublished i => exact readInv_readPublished h hs
  | startScan c =>
    cases hs
    exact h.of_reader rfl rfl rfl (fun _ hr => Or.inl hr) fun _ ha => Or.inl ha
  | snapshotBucket i =>
    obtain ⟨c, -, he⟩ := snapshotBucket_cases hs
    exact h.of_reader (by rw [he]) (by rw [he]) (by rw [he])
      (fun _ hr => Or.inl (by rwa [he] at hr)) fun _ ha => Or.inl (by rwa [he] at ha)
  | captureViews i =>
    obtain ⟨c, -, -, he⟩ := captureViews_cases hs
    exact h.of_reader (by rw [he]) (by rw [he]) (by rw [he])
      (fun _ hr => Or.inl (by rwa [he] at hr)) fun _ ha => Or.inl (by rwa [he] at ha)

/-! ## The whole run -/

theorem readInv_initial (o : Options) (c : Nat) : ReadInv (initial o c) where
  handed := handedOver_initial o.manager c
  sourced := allFrom_initial _ o.manager c
  calls _ hu := (List.not_mem_nil hu).elim
  known _ hr := (List.not_mem_nil hr).elim
  readers _ hr := (List.not_mem_nil hr).elim
  answers _ ha := (List.not_mem_nil ha).elim

theorem scanInv_initial (o : Options) (c : Nat) : ScanInv o (initial o c) where
  handed := handedOver_initial o.manager c
  known _ hc := (List.not_mem_nil hc).elim
  scans _ hc := (List.not_mem_nil hc).elim
  captured _ hc := (List.not_mem_nil hc).elim

instance [DecidableRel R] (s : State) (a : Action) : Decidable (ReplacesBy R s a) :=
  match a with
  | .submit i => inferInstanceAs (Decidable (∀ updates ∈ s.calls[i]?, _))
  | .manage (.wakeSubmitter k) => inferInstanceAs (Decidable (∀ w ∈ s.manager.submitters[k]?, _))
  | .put _ _ | .startUpdate | .locate _ _ _ _ _ | .manage (.submit _) | .manage .startFlush
  | .manage (.wakeFlusher _) | .manage .takeQueued | .manage (.callBack _ _) | .manage .retire
  | .manage .finishBuffer | .manage .stop | .lookupLatest _ | .locateRecord _ | .lookupExact _
  | .readPublished _ | .startScan _ | .snapshotBucket _ | .captureViews _ => isTrue trivial

/-- In every run in which no update replaces the pending value of a newer record of its key, every
point read finds the updates of the record that it reads. -/
theorem point_reads_find_the_acknowledged_updates (o : Options) (c : Nat) (s : State)
    (h : Lib.Reach (step o) (ReplacesBy (· ≤ ·)) (initial o c) s) :
    ∀ a ∈ s.answers, a.Complete s.manager.acknowledged := by
  have hinv : ReadInv s :=
    h.invariant (readInv_initial o c) fun _ _ _ hi hok hs => readInv_step hi hok hs
  exact hinv.answers

def exampleOptions : Options := ⟨twoBuffers, fun k => k.dst⟩

def edge : ObjectKey := ⟨.kEdge, 0, 1, 2, true, 0⟩

def edgeProperty : PendingKey := ⟨.kEdge, 0, 0, 1, 2, true, 0⟩

/-- The whole flush of a buffer with one record. -/
def flush : List Action :=
  [.manage .startFlush, .manage .takeQueued, .manage (.callBack 0 none), .manage .retire,
    .manage .retire, .manage .finishBuffer]

/-- The update is handed over after the read has seen it in the pending values. -/
theorem a_read_finds_an_update_on_its_way :
    ∃ s, Lib.Reach (step exampleOptions) (ReplacesBy (· ≤ ·)) (initial exampleOptions 1) s ∧
      s.answers.map (fun a => (a.base, a.found)) = [(5, some (1, [7]))] ∧
      ∀ a ∈ s.answers, a.Complete s.manager.acknowledged := by
  obtain ⟨s, hs, hanswers⟩ := Lib.exists_reach_of_run (step exampleOptions)
    (ReplacesBy (· ≤ ·)) (initial exampleOptions 1)
    ([.put edge 5, .startUpdate, .locate 0 edge 3 true [(0, [7])], .submit 0,
      .lookupLatest edgeProperty, .locateRecord 0] ++ flush ++ [.lookupExact 0, .readPublished 0])
    (fun s => s.answers.map (fun a => (a.base, a.found)) = [(5, some (1, [7]))])
    (by decide +kernel)
  exact ⟨s, hs, hanswers, point_reads_find_the_acknowledged_updates exampleOptions 1 s hs⟩

/-- A call that has located the record 5 submits after the update of the record 9. -/
theorem a_late_submit_hides_an_update :
    ∃ s, Lib.Reach (step exampleOptions) Lib.AnyStep (initial exampleOptions 1) s ∧
      s.answers.map (fun a => (a.base, a.found)) = [(9, none)] ∧
      ¬ ∀ a ∈ s.answers, a.Complete s.manager.acknowledged :=
  Lib.exists_reach_of_run (step exampleOptions) Lib.AnyStep (initial exampleOptions 1)
    [.put edge 5, .startUpdate, .locate 0 edge 3 true [(0, [7])], .put edge 9, .startUpdate,
      .locate 1 edge 3 true [(0, [8])], .submit 1, .submit 0, .lookupLatest edgeProperty,
      .locateRecord 0, .lookupExact 0, .readPublished 0]
    (fun s => s.answers.map (fun a => (a.base, a.found)) = [(9, none)] ∧
      ¬ ∀ a ∈ s.answers, a.Complete s.manager.acknowledged) (by decide +kernel)

/-- In every run in which no update replaces the pending value of another record of its key, every
scan captures the updates of all the records of its source. -/
theorem scans_capture_the_acknowledged_updates (o : Options) (c : Nat) (s : State)
    (h : Lib.Reach (step o) (ReplacesBy Eq) (initial o c) s) :
    ∀ d ∈ s.captured, d.Complete := by
  have hinv : ScanInv o s :=
    h.invariant (scanInv_initial o c) fun _ _ _ hi hok hs => scanInv_step hi hok hs
  exact hinv.captured

def edgeSource : Source := ⟨.kEdge, 0, 0, 1, true, 0⟩

/-- All the turns of `SnapshotForSource`. -/
def snapshotForSource : List Action := List.replicate kPendingBucketCount (.snapshotBucket 0)

/-- The update of the older record is handed over before the newer record is updated. -/
theorem a_scan_captures_the_updates_of_two_records :
    ∃ s, Lib.Reach (step exampleOptions) (ReplacesBy Eq) (initial exampleOptions 1) s ∧
      s.captured.map (fun d => (d.known.length, d.snapshot 2, d.views.length)) =
        [(2, some ⟨9, 2, [8]⟩, 1)] ∧
      ∀ d ∈ s.captured, d.Complete := by
  obtain ⟨s, hs, hcaptured⟩ := Lib.exists_reach_of_run (step exampleOptions)
    (ReplacesBy Eq) (initial exampleOptions 1)
    ([.put edge 5, .startUpdate, .locate 0 edge 3 true [(0, [7])], .submit 0] ++ flush ++
      [.put edge 9, .startUpdate, .locate 0 edge 3 true [(0, [8])], .submit 0,
        .startScan edgeSource] ++ snapshotForSource ++ [.captureViews 0])
    (fun s => s.captured.map (fun d => (d.known.length, d.snapshot 2, d.views.length)) =
      [(2, some ⟨9, 2, [8]⟩, 1)]) (by decide +kernel)
  exact ⟨s, hs, hcaptured, scans_capture_the_acknowledged_updates exampleOptions 1 s hs⟩

/-- The update of the record 9 takes the place of the one of the record 5, which no callback has
been given. -/
theorem a_newer_record_hides_an_update :
    ∃ s, Lib.Reach (step exampleOptions) Lib.AnyStep (initial exampleOptions 1) s ∧
      s.captured.map (fun d => (d.known.length, d.snapshot 2, d.views.length)) =
        [(2, some ⟨9, 2, [8]⟩, 0)] ∧
      ¬ ∀ d ∈ s.captured, d.Complete :=
  Lib.exists_reach_of_run (step exampleOptions) Lib.AnyStep (initial exampleOptions 1)
    ([.put edge 5, .startUpdate, .locate 0 edge 3 true [(0, [7])], .submit 0, .put edge 9,
      .startUpdate, .locate 0 edge 3 true [(0, [8])], .submit 0, .startScan edgeSource] ++
      snapshotForSource ++ [.captureViews 0])
    (fun s => s.captured.map (fun d => (d.known.length, d.snapshot 2, d.views.length)) =
        [(2, some ⟨9, 2, [8]⟩, 0)] ∧ ¬ ∀ d ∈ s.captured, d.Complete) (by decide +kernel)

end RichGraph.UpdateReads
