-- What a read of a property gives does not change while the background moves the
-- value: a flush of the memtable, a flush of the updates, a merge, a compaction.
-- A value that does not fit its column is cut when it gets there.
import RichGraph.UpdateOrder
import RichGraph.UpdateVisibility

namespace RichGraph

/-! ## What a step of the store does to a read -/

namespace DeltaHandOff

variable {lengths : Nat → Nat} {s s' : State} {id : RecordId} {p : Nat}

/-- The column of the file in which a record is has its value in full. -/
def FitsColumns (lengths : Nat → Nat) (propertyCount : Nat) (s : State) : Prop :=
  ∀ id fid, s.place id = some fid → ∀ p < propertyCount,
    keptValue (lengths p) (s.column fid p id) = s.column fid p id

/-- Nothing that a read can see has changed, and the columns have their values in full. -/
structure Unchanged (lengths : Nat → Nat) (propertyCount : Nat) (s s' : State) : Prop where
  fits : FitsColumns lengths propertyCount s'
  place : ∀ id, s'.place id = none ↔ s.place id = none
  reads : ∀ id, ∀ p < propertyCount, getEdge s' id p = getEdge s id p

variable {propertyCount : Nat}

theorem getEdge_eq (hp : s'.place id = s.place id)
    (h : ∀ fid, s.place id = some fid →
      lookup (s'.chains fid p).deltas id = lookup (s.chains fid p).deltas id ∧
        s'.column fid p id = s.column fid p id) : getEdge s' id p = getEdge s id p := by
  unfold getEdge
  rw [hp]
  cases hfid : s.place id with
  | none => rfl
  | some fid =>
    obtain ⟨hl, hc⟩ := h fid hfid
    simp only [Option.map_some, hl, hc]

theorem unchanged_publish {fid : Nat} (hfits : FitsColumns lengths propertyCount s)
    (hs : publish lengths fid s = some s') : Unchanged lengths propertyCount s s' := by
  unfold publish at hs
  split at hs
  · cases hs
    have hsame : ∀ id i, s.place id = some i → ∀ p < propertyCount,
        (if i = fid then keptValue (lengths p) (s.column i p id) else s.column i p id) =
          s.column i p id := by
      intro id i hi p hp
      split
      · exact hfits id i hi p hp
      · rfl
    refine ⟨?_, fun _ => Iff.rfl, ?_⟩
    · intro id i hi p hp
      dsimp only at hi ⊢
      rw [hsame id i hi p hp]
      exact hfits id i hi p hp
    · intro id p hp
      exact getEdge_eq rfl fun i hi => ⟨rfl, hsame id i hi p hp⟩
  · cases hs

theorem unchanged_markTargetPersistent {fid propertyId : Nat}
    (hfits : FitsColumns lengths propertyCount s)
    (hs : markTargetPersistent fid propertyId s = some s') :
    Unchanged lengths propertyCount s s' := by
  unfold markTargetPersistent at hs
  split at hs
  · cases hs
    refine ⟨hfits, fun _ => Iff.rfl, fun id p _ => getEdge_eq rfl fun i _ => ⟨?_, rfl⟩⟩
    dsimp only [State.setChain]
    split
    · rename_i heq
      rw [heq.1, heq.2]
    · rfl
  · cases hs

/-- What a merge takes out of the chain is what it writes into the column. -/
theorem unchanged_mergeChain {fid propertyId count : Nat} (h : Inv lengths s)
    (hfits : FitsColumns lengths propertyCount s)
    (hs : mergeChain lengths fid propertyId count s = some s') :
    Unchanged lengths propertyCount s s' := by
  unfold mergeChain at hs
  dsimp only at hs
  split at hs
  swap
  · cases hs
  cases hs
  have horder := h.order fid propertyId
  rw [← List.take_append_drop count (s.chains fid propertyId).deltas] at horder
  have hmerged := applyFiles_eq (lengths propertyId) (List.pairwise_append.mp horder).1
    (s.column fid propertyId)
  have hvalue : ∀ id r,
      lookup ((s.chains fid propertyId).deltas.take count) id = some r →
        keptValue (lengths propertyId) r.value = r.value := by
    intro id r hr
    obtain ⟨f, hf, hrf, -⟩ := mem_of_lookup hr
    exact h.acknowledged_fits _
      (h.chain_acknowledged fid propertyId f (List.mem_of_mem_take hf) r hrf)
  refine ⟨?_, fun _ => Iff.rfl, ?_⟩
  · intro id i hi p hp
    dsimp only [State.setChain] at hi ⊢
    split
    · rename_i heq
      obtain ⟨rfl, rfl⟩ := heq
      rw [hmerged]
      cases hl : lookup ((s.chains i p).deltas.take count) id with
      | none => exact hfits id i hi p hp
      | some r =>
        simp only [Option.map_some, Option.getD_some]
        rw [hvalue id r hl, hvalue id r hl]
    · exact hfits id i hi p hp
  · intro id p _
    unfold getEdge
    dsimp only [State.setChain]
    cases s.place id with
    | none => rfl
    | some i =>
      simp only [Option.map_some]
      split_ifs with heq
      · obtain ⟨rfl, rfl⟩ := heq
        conv_rhs => rw [← List.take_append_drop count (s.chains i p).deltas]
        rw [lookup_append horder, hmerged]
        cases lookup ((s.chains i p).deltas.drop count) id with
        | some r => rfl
        | none =>
          rw [Option.none_or]
          cases hl : lookup ((s.chains i p).deltas.take count) id with
          | none => rfl
          | some r =>
            simp only [Option.map_some, Option.getD_some]
            rw [hvalue id r hl]
      · rfl

/-- The phase of the compaction does not show in a read. -/
theorem Unchanged.of_phase (h : Unchanged lengths propertyCount s s') (phase : Phase) :
    Unchanged lengths propertyCount s { s' with phase := phase } :=
  ⟨h.fits, h.place, h.reads⟩

theorem Unchanged.refl (hfits : FitsColumns lengths propertyCount s) :
    Unchanged lengths propertyCount s s :=
  ⟨hfits, fun _ => Iff.rfl, fun _ _ _ => rfl⟩

theorem unchanged_drain (h : Inv lengths s) (hfits : FitsColumns lengths propertyCount s)
    (hs : drain lengths s = some s') : Unchanged lengths propertyCount s s' := by
  unfold drain at hs
  split at hs
  · dsimp only at hs
    split at hs
    · split at hs
      · rename_i hmerge
        cases hs
        exact (unchanged_mergeChain h hfits hmerge).of_phase _
      · cases hs
        exact (Unchanged.refl hfits).of_phase _
    · cases hs
      exact (Unchanged.refl hfits).of_phase _
  · cases hs

/-- The output has the columns of the inputs, and these had no deltas left. -/
theorem unchanged_install (h : Inv lengths s) (hfits : FitsColumns lengths propertyCount s)
    (hs : install s = some s') : Unchanged lengths propertyCount s s' := by
  unfold install at hs
  split at hs
  swap
  · cases hs
  rename_i inputs columns hphase
  cases hs
  have hm := h.merging inputs columns hphase
  have hold : ∀ id i, s.place id = some i → i ≠ s.nextFid := by
    intro id i hi heq
    have hb := h.placed id i hi
    rw [(h.fresh i (Nat.le_of_eq heq.symm)).1] at hb
    rcases hb with hb | hb <;> cases hb
  refine ⟨?_, fun _ => Option.map_eq_none_iff, ?_⟩
  · intro id fid hfid p hp
    obtain ⟨i, hi, rfl⟩ := Option.map_eq_some_iff.mp hfid
    dsimp only
    by_cases hin : i ∈ inputs
    · rw [if_pos hin, if_pos rfl, hm.columns id i hi hin p]
      exact hfits id i hi p hp
    · rw [if_neg hin, if_neg (hold id i hi)]
      exact hfits id i hi p hp
  · intro id p _
    unfold getEdge
    dsimp only
    cases hi : s.place id with
    | none => rfl
    | some i =>
      simp only [Option.map_some]
      by_cases hin : i ∈ inputs
      · rw [if_pos hin, if_pos rfl, (h.fresh s.nextFid (Nat.le_refl _)).2 p, hm.drained i hin p,
          hm.columns id i hi hin p]
      · rw [if_neg hin, if_neg (hold id i hi)]

/-- The moves of the background: all but a put and an attach. -/
def Action.IsMove : Action → Prop
  | .put _ _ | .attach _ _ _ _ => False
  | _ => True

theorem unchanged_move {a : Action} (ha : a.IsMove) (h : Inv lengths s)
    (hfits : FitsColumns lengths propertyCount s) (hs : step lengths s a = some s') :
    Unchanged lengths propertyCount s s' := by
  cases a with
  | put id value => exact ha.elim
  | attach fid p saw records => exact ha.elim
  | switch =>
    cases hs
    exact ⟨hfits, fun _ => Iff.rfl, fun _ _ _ => rfl⟩
  | publish fid => exact unchanged_publish hfits hs
  | markTargetPersistent fid p => exact unchanged_markTargetPersistent hfits hs
  | mergeChain fid p count => exact unchanged_mergeChain h hfits hs
  | lock =>
    simp only [step, lock] at hs
    split at hs <;> cases hs
    exact (Unchanged.refl hfits).of_phase _
  | drain => exact unchanged_drain h hfits hs
  | pick inputs =>
    simp only [step, pick] at hs
    split at hs
    · split at hs <;> cases hs
      exact (Unchanged.refl hfits).of_phase _
    · cases hs
  | install => exact unchanged_install h hfits hs

/-- A put adds its record, and changes no read of another one. -/
theorem put_reads {value : Nat → Bytes}
    (hvalue : ∀ p < propertyCount, keptValue (lengths p) (value p) = value p)
    (hfits : FitsColumns lengths propertyCount s) (hs : put id value s = some s') :
    FitsColumns lengths propertyCount s' ∧ (∀ i, s.place i ≠ none → s'.place i ≠ none) ∧
      ∀ i ≠ id, s'.place i = s.place i ∧ ∀ p, getEdge s' i p = getEdge s i p := by
  unfold put at hs
  split at hs
  swap
  · cases hs
  cases hs
  refine ⟨?_, ?_, ?_⟩
  · intro i fid hfid p hp
    dsimp only at hfid ⊢
    split_ifs at hfid with hi
    · cases hfid
      rw [if_pos ⟨rfl, hi⟩]
      exact hvalue p hp
    · rw [if_neg fun hc => hi hc.2]
      exact hfits i fid hfid p hp
  · intro i hi
    dsimp only
    split_ifs
    · exact Option.some_ne_none _
    · exact hi
  · intro i hi
    have hplace : (if i = id then some s.active else s.place i) = s.place i := if_neg hi
    refine ⟨hplace, fun p => getEdge_eq hplace fun fid _ => ⟨rfl, ?_⟩⟩
    exact if_neg fun hc => hi hc.2

/-- Updates of other records, or of another property, do not show in a read. -/
theorem attach_reads {fid propertyId : Nat} {sawMemtable : Bool}
    {records : List PropertyDeltaRecord}
    (hs : attach fid propertyId sawMemtable records s = some s') :
    s'.place = s.place ∧ s'.column = s.column ∧
      ∀ id p, (p = propertyId → ∀ r ∈ records, r.id ≠ id) → getEdge s' id p = getEdge s id p := by
  unfold attach at hs
  split at hs
  swap
  · cases hs
  split at hs
  swap
  · cases hs
  cases hs
  refine ⟨rfl, rfl, fun id p hother => getEdge_eq rfl fun i _ => ⟨?_, rfl⟩⟩
  dsimp only [State.setChain]
  split_ifs with heq
  · obtain ⟨rfl, rfl⟩ := heq
    have hnone : lookupFile records id = none := by
      rw [Option.eq_none_iff_forall_ne_some]
      intro r hr
      obtain ⟨hmem, hid⟩ := mem_of_lookupFile hr
      exact hother rfl r hmem hid
    simp [lookup, betterOf, hnone]
  · rfl

end DeltaHandOff

namespace UpdateOrder

open DeltaHandOff (FitsColumns)
open PropertyUpdateManager (bufferedUpdate Delta PendingKey PendingValue Replaces HandedOver AllFrom
  KeptBySections
  makePendingKey)

variable {o : Options} {s s' : State} {a : Action}

theorem attachFiles_reads {propertyId : Nat} {records : List PropertyDeltaRecord}
    {files : List (Nat × Bool)} {d d' : DeltaHandOff.State}
    (hs : attachFiles propertyId records files d = some d') :
    d'.place = d.place ∧ d'.column = d.column ∧
      ∀ id p, (p = propertyId → ∀ r ∈ records, r.id ≠ id) →
        DeltaHandOff.getEdge d' id p = DeltaHandOff.getEdge d id p := by
  induction files generalizing d with
  | nil =>
    cases hs
    exact ⟨rfl, rfl, fun _ _ _ => rfl⟩
  | cons f files ih =>
    obtain ⟨d₁, hd₁, hrest⟩ := Option.bind_eq_some_iff.mp hs
    obtain ⟨hplace₁, hcolumn₁, hreads₁⟩ := DeltaHandOff.attach_reads hd₁
    obtain ⟨hplace, hcolumn, hreads⟩ := ih hrest
    refine ⟨hplace.trans hplace₁, hcolumn.trans hcolumn₁, fun id p hother => ?_⟩
    rw [hreads id p hother]
    exact hreads₁ id p fun hp r hr => hother hp r (List.mem_of_mem_filter hr)

/-! ## The read -/

/-- The pending key of a property of a record. -/
def pendingKey (o : Options) (id : RecordId) (propertyId : Nat) : PendingKey :=
  ⟨.kEdge, o.shardId, propertyId, id.src, id.dst, id.isOut, id.edgeType⟩

/-- `LookupExact`: a pending value counts for the record that it was made for. -/
def lookupExact (o : Options) (s : State) (id : RecordId) (propertyId : Nat) :
    Option PendingValue :=
  (s.manager.pending (pendingKey o id propertyId)).filter fun v =>
    v.baseSequence = id.baseSequence

/-- `GetEdge` for a record that a read finds: the pending value first, then what the store has. -/
def getEdge (o : Options) (s : State) (id : RecordId) (propertyId : Nat) : Option Bytes :=
  ((lookupExact o s id propertyId).map PendingValue.value).or
    (DeltaHandOff.getEdge s.deltas id propertyId)

/-- Two records of one edge. -/
def SameEdge (x y : RecordId) : Prop :=
  x.src = y.src ∧ x.dst = y.dst ∧ x.isOut = y.isOut ∧ x.edgeType = y.edgeType

instance (x y : RecordId) : Decidable (SameEdge x y) := inferInstanceAs (Decidable (_ ∧ _))

/-- No newer record of the edge has been put. -/
def IsCurrent (s : State) (id : RecordId) : Prop :=
  ∀ id', s.deltas.place id' ≠ none → SameEdge id' id → id'.baseSequence ≤ id.baseSequence

/-- The step does not write the edge. -/
def NoWrite (s : State) (id : RecordId) : Action → Prop
  | .updateEdge _ _ id' _ => ¬ SameEdge id' id
  | .manage (.wakeSubmitter k) =>
    ∀ w ∈ s.manager.submitters[k]?, ∀ u ∈ w.batch, ¬ SameEdge u.record.id id
  | .move (.put id' _) => ¬ SameEdge id' id
  | _ => True

/-- The values that are put and that are handed over fit their columns, a group is handed over
after the updates with smaller commits of its records, a compaction selects no file whose chains
still have deltas, and no update replaces the pending value of a newer record of its key. -/
def KeepsBytes (o : Options) (propertyCount : Nat) (s : State) (a : Action) : Prop :=
  HandsOverByCommit o s a ∧
    match a with
    | .move (.put _ value) => ∀ p < propertyCount, keptValue (o.lengths p) (value p) = value p
    | .updateEdge located inMemtable id properties =>
      Replaces (· ≤ ·) s.manager.pending
        (properties.map (bufferedUpdate .kEdge o.shardId located inMemtable id))
    | .manage (.wakeSubmitter k) =>
      ∀ w ∈ s.manager.submitters[k]?, Replaces (· ≤ ·) s.manager.pending w.batch
    | _ => True

/-- An update is for an edge of the shard that was put. -/
def Sourced (o : Options) (s : State) (x : Delta) : Prop :=
  s.deltas.place x.2.id ≠ none ∧ Delta.key x = pendingKey o x.2.id x.1.propertyId

structure ReadsInv (o : Options) (propertyCount : Nat) (s : State) : Prop where
  order : Inv o s
  handed : HandedOver (· ≤ ·) s.manager
  fits : FitsColumns o.lengths propertyCount s.deltas
  sourced : AllFrom (Sourced o s) s.manager

/-! ## The invariant is kept -/

variable {propertyCount : Nat}

/-- The batch of a step replaces no pending value of a newer record. -/
theorem maySubmit {b : PropertyUpdateManager.Action}
    (hok : KeepsBytes o propertyCount s (.manage b)) (hsubmit : ∀ batch, b ≠ .submit batch) :
    PropertyUpdateManager.MaySubmit (Replaces (· ≤ ·)) s.manager b := by
  cases b with
  | submit batch => exact absurd rfl (hsubmit batch)
  | wakeSubmitter k => exact hok.2
  | _ => trivial

theorem handed_step (h : ReadsInv o propertyCount s) (hok : KeepsBytes o propertyCount s a)
    (hs : step o s a = some s') : HandedOver (· ≤ ·) s'.manager := by
  cases a with
  | updateEdge located inMemtable id properties =>
    obtain ⟨-, rfl⟩ := updateEdge_cases hs
    exact (PropertyUpdateManager.handedOver_sections o.manager).submitBatch hok.2 h.handed
  | manage b =>
    obtain ⟨hsubmit, -, m, hm, rfl⟩ := manage_cases hs
    exact PropertyUpdateManager.handedOver_step h.handed (maySubmit hok hsubmit) hm
  | callBack k files =>
    obtain ⟨g, d, m, -, -, -, -, hm, -, rfl⟩ := callBack_cases hs
    exact PropertyUpdateManager.handedOver_step (o := o.manager) (a := .callBack k none) h.handed
      trivial hm
  | move a =>
    obtain ⟨-, d, -, rfl⟩ := move_cases hs
    exact h.handed

/-- Records stay where they are or move on, and the columns hold their values. -/
theorem fits_step (h : ReadsInv o propertyCount s) (hok : KeepsBytes o propertyCount s a)
    (hs : step o s a = some s') :
    FitsColumns o.lengths propertyCount s'.deltas ∧
      ∀ id, s.deltas.place id ≠ none → s'.deltas.place id ≠ none := by
  cases a with
  | updateEdge located inMemtable id properties =>
    obtain ⟨-, rfl⟩ := updateEdge_cases hs
    exact ⟨h.fits, fun _ hplace => hplace⟩
  | manage b =>
    obtain ⟨-, -, m, -, rfl⟩ := manage_cases hs
    exact ⟨h.fits, fun _ hplace => hplace⟩
  | callBack k files =>
    obtain ⟨g, d, m, -, -, -, hd, -, -, rfl⟩ := callBack_cases hs
    obtain ⟨hplace, hcolumn, -⟩ := attachFiles_reads hd
    refine ⟨?_, fun id hid => by rwa [hplace]⟩
    unfold FitsColumns
    rw [hplace, hcolumn]
    exact h.fits
  | move a =>
    obtain ⟨hattach, d, hd, rfl⟩ := move_cases hs
    have hmove : a.IsMove → FitsColumns o.lengths propertyCount d ∧
        ∀ id, s.deltas.place id ≠ none → d.place id ≠ none := by
      intro ha
      have hu := DeltaHandOff.unchanged_move ha h.order.deltas h.fits hd
      exact ⟨hu.fits, fun id hid => (hu.place id).not.mpr hid⟩
    cases a with
    | put id value =>
      obtain ⟨hfits, hplace, -⟩ := DeltaHandOff.put_reads hok.2 h.fits hd
      exact ⟨hfits, hplace⟩
    | attach fid p saw records => exact absurd rfl (hattach fid p saw records)
    | _ => exact hmove trivial

theorem sourced_step (h : ReadsInv o propertyCount s) (hok : KeepsBytes o propertyCount s a)
    (hs : step o s a = some s') : AllFrom (Sourced o s') s'.manager := by
  have hplace := (fits_step h hok hs).2
  have hnow : AllFrom (Sourced o s) s'.manager := by
    cases a with
    | updateEdge located inMemtable id properties =>
      obtain ⟨hid, rfl⟩ := updateEdge_cases hs
      refine (PropertyUpdateManager.allFrom_sections o.manager fun _ _ hx => hx).submitBatch ?_
        h.sourced
      intro u hu
      obtain ⟨property, -, rfl⟩ := List.mem_map.mp hu
      exact ⟨hid, rfl⟩
    | manage b =>
      obtain ⟨hsubmit, -, m, hm, rfl⟩ := manage_cases hs
      exact h.sourced.of_step (fun _ _ hx => hx) hsubmit hm
    | callBack k files =>
      obtain ⟨g, d, m, -, -, -, -, hm, -, rfl⟩ := callBack_cases hs
      exact h.sourced.of_step (o := o.manager) (a := .callBack k none) (fun _ _ hx => hx)
        (by simp) hm
    | move a =>
      obtain ⟨-, d, -, rfl⟩ := move_cases hs
      exact h.sourced
  exact hnow.imp fun x hx => ⟨hplace _ hx.1, hx.2⟩

theorem readsInv_step (h : ReadsInv o propertyCount s) (hok : KeepsBytes o propertyCount s a)
    (hs : step o s a = some s') : ReadsInv o propertyCount s' where
  order := inv_step h.order hok.1 hs
  handed := handed_step h hok hs
  fits := (fits_step h hok hs).1
  sourced := sourced_step h hok hs

theorem readsInv_initial (o : Options) (propertyCount c : Nat) :
    ReadsInv o propertyCount (initial o c) where
  order := inv_initial o c
  handed := PropertyUpdateManager.handedOver_initial o.manager c
  fits _ _ hplace := by cases hplace
  sourced := PropertyUpdateManager.allFrom_initial _ o.manager c

/-! ## Reads do not change -/

variable {id : RecordId} {p : Nat}

theorem sameEdge_of_key {x : Delta} (h : Delta.key x = pendingKey o id p) :
    SameEdge x.2.id id := by
  injection h with _ _ _ hsrc hdst hout htype
  exact ⟨hsrc, hdst, hout, htype⟩

theorem id_of_key {x : Delta} (hkey : Delta.key x = pendingKey o id p)
    (hbase : x.2.baseSequence = id.baseSequence) : x.2.id = id ∧ x.1.propertyId = p := by
  obtain ⟨hsrc, hdst, hout, htype⟩ := sameEdge_of_key hkey
  injection hkey with _ _ hproperty
  refine ⟨?_, hproperty⟩
  obtain ⟨src, dst, base, isOut, edgeType⟩ := id
  rw [PropertyDeltaRecord.id, RecordId.mk.injEq]
  exact ⟨hsrc, hdst, hbase, hout, htype⟩

theorem getEdge_of_same
    (hpending : s'.manager.pending (pendingKey o id p) = s.manager.pending (pendingKey o id p))
    (hdeltas : DeltaHandOff.getEdge s'.deltas id p = DeltaHandOff.getEdge s.deltas id p) :
    getEdge o s' id p = getEdge o s id p := by
  unfold getEdge lookupExact
  rw [hpending, hdeltas]

/-- A pending value whose commit was handed over is what the store has. -/
theorem getEdge_of_handed (h : ReadsInv o propertyCount s) {v : PendingValue}
    (hv : s.manager.pending (pendingKey o id p) = some v)
    (hpassed : ∀ x ∈ s.manager.acknowledged, x.2.commitSequence = v.commitSequence →
      x ∈ s.manager.passed)
    (hbase : v.baseSequence = id.baseSequence) :
    DeltaHandOff.getEdge s.deltas id p = some v.value := by
  obtain ⟨x, hx, hkey, rfl⟩ := h.handed.shown.known _ v hv
  obtain ⟨rfl, rfl⟩ := id_of_key hkey hbase
  have hattached := h.order.passed x (hpassed x hx rfl)
  -- The pending value is the newest update of its key, so it was attached last.
  have hmax : ∀ q ∈ s.deltas.acknowledged, q.1 = x.1.propertyId → q.2.id = x.2.id →
      q.2.commitSequence ≤ x.2.commitSequence := by
    intro q hq hproperty hid
    obtain ⟨y, hy, hyp, hyr⟩ := h.order.attached q hq
    have hyack := h.order.known.passed y hy
    have hykey := (h.sourced.acknowledged y hyack).2
    rw [← hyr] at hid ⊢
    rw [hid, hyp, hproperty] at hykey
    exact h.handed.shown.newest _ _ hv y hyack hykey
  apply DeltaHandOff.getEdge_of_inv h.order.deltas
  unfold DeltaHandOff.lastAcknowledged
  rw [find?_newest h.order.newest hattached hmax]
  rfl

theorem getEdge_retire (h : ReadsInv o propertyCount s) {m : PropertyUpdateManager.State}
    (hm : s.manager.retire = some m) :
    getEdge o { s with manager := m } id p = getEdge o s id p := by
  rcases PropertyUpdateManager.pending_retire (o := o.manager) h.handed.together hm
    (pendingKey o id p) with hsame | ⟨hnone, v, hv, hpassed⟩
  · exact getEdge_of_same hsame rfl
  · unfold getEdge lookupExact
    dsimp only
    rw [hnone, hv, Option.filter_none, Option.map_none, Option.none_or, Option.filter_some]
    split_ifs with hbase
    · rw [Option.map_some, Option.some_or]
      exact getEdge_of_handed h hv hpassed (of_decide_eq_true hbase)
    · rfl

/-- An update of the current record that is handed over is pending: else a newer one was handed
over before it. -/
theorem pending_of_handing (h : ReadsInv o propertyCount s) (hcurrent : IsCurrent s id)
    {x : Delta} (hx : x ∈ s.manager.acknowledged) (hid : x.2.id = id) (hp : x.1.propertyId = p)
    (hcommits : ∀ q ∈ s.deltas.acknowledged, q.1 = p → q.2.id = id →
      q.2.commitSequence < x.2.commitSequence) :
    ∃ v, s.manager.pending (pendingKey o id p) = some v ∧ v.baseSequence = id.baseSequence := by
  have hkey : Delta.key x = pendingKey o id p := by
    rw [(h.sourced.acknowledged x hx).2, hid, hp]
  have hxbase : x.2.baseSequence = id.baseSequence := congrArg RecordId.baseSequence hid
  -- What stands for the update has no newer base, since the record is current.
  have hbase : ∀ y ∈ s.manager.acknowledged, Delta.key y = Delta.key x →
      x.2.baseSequence ≤ y.2.baseSequence → y.2.baseSequence = id.baseSequence := by
    intro y hy hyk hle
    have := hcurrent y.2.id (h.sourced.acknowledged y hy).1 (sameEdge_of_key (hyk.trans hkey))
    exact Nat.le_antisymm this (hxbase ▸ hle)
  rcases h.handed.shown.shown x hx with ⟨v, hv, hle⟩ | ⟨y, hy, hyk, hcommit, hle⟩
  · obtain ⟨y, hy, hyk, rfl⟩ := h.handed.shown.known _ v hv
    exact ⟨_, hkey ▸ hv, hbase y hy hyk hle⟩
  · have hyack := h.order.known.passed y hy
    obtain ⟨hyid, hyp⟩ := id_of_key (hyk.trans hkey) (hbase y hyack hyk hle)
    exact absurd (hcommits _ (h.order.passed y hy) hyp hyid) (Nat.not_lt.mpr hcommit)

theorem mem_worker_of_groupAt {k : Nat} {g : PropertyUpdateManager.Group}
    (hg : groupAt s k = some g) {r : PropertyDeltaRecord} (hr : r ∈ g.records) :
    (g.target, r) ∈ s.manager.worker.deltas := by
  unfold groupAt at hg
  split at hg
  · rename_i i groups hw
    rw [hw]
    exact List.mem_flatMap.mpr ⟨g, List.mem_of_getElem? hg, List.mem_map.mpr ⟨r, hr, rfl⟩⟩
  · cases hg

theorem getEdge_callBack {k : Nat} {files : List (Nat × Bool)} (h : ReadsInv o propertyCount s)
    (hok : HandsOverByCommit o s (.callBack k files)) (hcurrent : IsCurrent s id)
    (hs : step o s (.callBack k files) = some s') : getEdge o s' id p = getEdge o s id p := by
  obtain ⟨g, d, m, hg, -, -, hd, hm, -, rfl⟩ := callBack_cases hs
  obtain ⟨i, groups, g', hw, hg', rfl⟩ := PropertyUpdateManager.callBack_cases (o := o.manager) hm
  obtain ⟨-, -, hreads⟩ := attachFiles_reads hd
  by_cases hother : p = g.target.propertyId → ∀ r ∈ g.records, r.id ≠ id
  · exact getEdge_of_same rfl (hreads id p hother)
  · -- The pending value answers before and after.
    obtain ⟨rfl, r, hr, hid⟩ : p = g.target.propertyId ∧ ∃ r ∈ g.records, r.id = id := by
      simpa using hother
    have hmem := mem_worker_of_groupAt hg hr
    obtain ⟨v, hv, hbase⟩ := pending_of_handing h hcurrent (h.order.known.worker _ hmem) hid rfl
      fun q hq hproperty hqid => (hok g hg).1.1 r hr q hq hproperty (hqid.trans hid.symm)
    unfold getEdge lookupExact
    dsimp only
    rw [hv, Option.filter_some, if_pos (decide_eq_true hbase)]
    rfl

/-- A step that does not write the edge does not change what a read of its current record gives. -/
theorem getEdge_step (h : ReadsInv o propertyCount s) (hok : KeepsBytes o propertyCount s a)
    (hs : step o s a = some s') (hcurrent : IsCurrent s id) (hwrite : NoWrite s id a)
    (hp : p < propertyCount) : getEdge o s' id p = getEdge o s id p := by
  cases a with
  | updateEdge located inMemtable id' properties =>
    obtain ⟨-, rfl⟩ := updateEdge_cases hs
    refine getEdge_of_same ((PropertyUpdateManager.pending_sections o.manager _ _).submitBatch ?_
      rfl) rfl
    intro u hu hkey
    obtain ⟨property, -, rfl⟩ := List.mem_map.mp hu
    exact hwrite (sameEdge_of_key
      (x := (bufferedUpdate .kEdge o.shardId located inMemtable id' property).delta) hkey)
  | manage b =>
    obtain ⟨hsubmit, -, m, hm, rfl⟩ := manage_cases hs
    have hcaller : b.OfCaller →
        PropertyUpdateManager.MaySubmit
          (fun _ batch => ∀ u ∈ batch, makePendingKey u ≠ pendingKey o id p) s.manager b →
        getEdge o { s with manager := m } id p = getEdge o s id p := fun hof hmay =>
      getEdge_of_same ((PropertyUpdateManager.pending_sections o.manager _ _).of_caller hof hmay
        rfl hm) rfl
    have hworker : ¬ b.OfCaller → b ≠ .retire →
        getEdge o { s with manager := m } id p = getEdge o s id p := fun hof hretire =>
      getEdge_of_same (congrFun (PropertyUpdateManager.pending_worker hof hretire hm) _) rfl
    cases b with
    | submit batch => exact absurd rfl (hsubmit batch)
    | wakeSubmitter k =>
      exact hcaller trivial fun w hw u hu hkey => hwrite w hw u hu
        (sameEdge_of_key (x := u.delta) hkey)
    | startFlush => exact hcaller trivial trivial
    | wakeFlusher k => exact hcaller trivial trivial
    | retire => exact getEdge_retire h hm
    | _ => exact hworker (fun hof => hof) (by simp)
  | callBack k files => exact getEdge_callBack h hok.1 hcurrent hs
  | move a =>
    obtain ⟨hattach, d, hd, rfl⟩ := move_cases hs
    have hmove : a.IsMove → getEdge o { s with deltas := d } id p = getEdge o s id p := fun ha =>
      getEdge_of_same rfl
        ((DeltaHandOff.unchanged_move ha h.order.deltas h.fits hd).reads id p hp)
    cases a with
    | put id' value =>
      obtain ⟨-, -, hother⟩ := DeltaHandOff.put_reads hok.2 h.fits hd
      have hne : id ≠ id' := by
        rintro rfl
        exact hwrite ⟨rfl, rfl, rfl, rfl⟩
      exact getEdge_of_same rfl ((hother id hne).2 p)
    | attach fid p saw records => exact absurd rfl (hattach fid p saw records)
    | _ => exact hmove trivial

/-- Nobody puts a newer record of the edge. -/
theorem isCurrent_step (h : ReadsInv o propertyCount s) (hok : KeepsBytes o propertyCount s a)
    (hs : step o s a = some s') (hcurrent : IsCurrent s id) (hwrite : NoWrite s id a) :
    IsCurrent s' id := by
  cases a with
  | updateEdge located inMemtable id' properties =>
    obtain ⟨-, rfl⟩ := updateEdge_cases hs
    exact hcurrent
  | manage b =>
    obtain ⟨-, -, m, -, rfl⟩ := manage_cases hs
    exact hcurrent
  | callBack k files =>
    obtain ⟨g, d, m, -, -, -, hd, -, -, rfl⟩ := callBack_cases hs
    obtain ⟨hplace, -⟩ := attachFiles_reads hd
    unfold IsCurrent
    rw [hplace]
    exact hcurrent
  | move a =>
    obtain ⟨hattach, d, hd, rfl⟩ := move_cases hs
    have hmove : a.IsMove → IsCurrent { s with deltas := d } id := by
      intro ha id' hid'
      have hu := DeltaHandOff.unchanged_move ha h.order.deltas h.fits hd
      exact hcurrent id' ((hu.place id').not.mp hid')
    cases a with
    | put id' value =>
      obtain ⟨-, -, hother⟩ := DeltaHandOff.put_reads hok.2 h.fits hd
      intro i hi hsame
      have hne : i ≠ id' := by
        rintro rfl
        exact hwrite hsame
      exact hcurrent i ((hother i hne).1 ▸ hi) hsame
    | attach fid p saw records => exact absurd rfl (hattach fid p saw records)
    | _ => exact hmove trivial

instance (o : Options) (propertyCount : Nat) (s : State) (a : Action) :
    Decidable (KeepsBytes o propertyCount s a) :=
  match a with
  | .move (.put _ _) => inferInstanceAs (Decidable (_ ∧ ∀ p < propertyCount, _))
  | .updateEdge _ _ _ _ => inferInstanceAs (Decidable (_ ∧ Replaces _ _ _))
  | .manage (.wakeSubmitter k) =>
    inferInstanceAs (Decidable (_ ∧ ∀ w ∈ s.manager.submitters[k]?, _))
  | .callBack k files => inferInstanceAs (Decidable (HandsOverByCommit o s
    (.callBack k files) ∧ True))
  | .move (.pick inputs) =>
    inferInstanceAs (Decidable (HandsOverByCommit o s (.move (.pick inputs)) ∧ True))
  | .manage (.submit _) | .manage .startFlush | .manage (.wakeFlusher _) | .manage .takeQueued
  | .manage (.callBack _ _) | .manage .retire | .manage .finishBuffer | .manage .stop
  | .move .switch | .move (.publish _) | .move (.markTargetPersistent _ _)
  | .move (.attach _ _ _ _) | .move (.mergeChain _ _ _) | .move .lock | .move .drain
  | .move .install => isTrue ⟨trivial, trivial⟩

instance (s : State) (id : RecordId) (a : Action) : Decidable (NoWrite s id a) :=
  match a with
  | .updateEdge _ _ _ _ | .move (.put _ _) => inferInstanceAs (Decidable (¬ SameEdge _ _))
  | .manage (.wakeSubmitter k) =>
    inferInstanceAs (Decidable (∀ w ∈ s.manager.submitters[k]?, ∀ u ∈ w.batch, _))
  | .callBack _ _ | .manage (.submit _) | .manage .startFlush | .manage (.wakeFlusher _)
  | .manage .takeQueued | .manage (.callBack _ _) | .manage .retire | .manage .finishBuffer
  | .manage .stop | .move .switch | .move (.publish _) | .move (.markTargetPersistent _ _)
  | .move (.attach _ _ _ _) | .move (.mergeChain _ _ _) | .move .lock | .move .drain
  | .move (.pick _) | .move .install => isTrue trivial

/-- The edge of the examples. -/
def edge : RecordId := ⟨1, 2, 0, true, 0⟩

/-- An edge is put into the memtable and updated there. -/
def putAndUpdate : List Action :=
  [.move (.put edge fun _ => [5]), .updateEdge 0 true edge [(0, [8])]]

def updated : State :=
  (Lib.run (step exampleOptions) Lib.AnyStep (initial exampleOptions 1) putAndUpdate).getD
    (initial exampleOptions 1)

theorem place_updated (id : RecordId) :
    updated.deltas.place id = if id = edge then some 0 else none := rfl

theorem isCurrent_updated : IsCurrent updated edge := by
  intro id hid _
  rw [place_updated] at hid
  split_ifs at hid with heq
  · rw [heq]
  · exact absurd rfl hid

/-- The flush of the memtable, the flush and the merge of the update, and a compaction. -/
def background : List Action :=
  [.move .switch, .move (.publish 0), .move (.markTargetPersistent 0 0), .manage .startFlush,
    .manage .takeQueued, .callBack 0 [(0, false)], .manage .retire, .manage .retire,
    .manage .finishBuffer, .move (.mergeChain 0 0 1), .move .lock, .move .drain, .move (.pick [0]),
    .move .install]

end UpdateOrder

end RichGraph
