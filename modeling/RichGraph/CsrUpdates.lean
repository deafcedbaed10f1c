-- Updates of edges in the CSR mode. An update is handed over to the chain of the
-- memtable or of the file of the snapshot in which its record is found. A rebuild
-- copies the columns of the files as they were flushed, into files with new ids.
import RichGraph.StableReads

namespace RichGraph

namespace CsrUpdates

open UpdateOrder (IsCurrent KeepsBytes ReadsInv pendingKey)

/-- In `updates.deltas` the place of a record is its memtable, its file in the levels while no
snapshot has it, or its file in the snapshot. -/
structure State where
  updates : UpdateOrder.State
  /-- The file of the levels that has a record. -/
  sst : RecordId → Option Nat
  /-- `GetPropertyData` of a file of the levels: a merge writes another file beside it. -/
  data : Nat → Nat → RecordId → Bytes
  /-- The files of the snapshot. -/
  current : Nat → Bool
  /-- The slots that the rebuild which runs has copied. -/
  building : Option (RecordId → Option (Nat → Bytes))

def initial (o : UpdateOrder.Options) (initialCommitSequence : Nat) : State :=
  { updates := UpdateOrder.initial o initialCommitSequence
    sst := fun _ => none
    data := fun _ _ _ => []
    current := fun _ => false
    building := none }

/-- `LocateEdge` and `GetEdge` find the record: in a memtable, or in the snapshot. -/
def Findable (s : State) (id : RecordId) : Prop :=
  ∃ fid ∈ s.updates.deltas.place id, s.updates.deltas.base fid = .memtable ∨ s.current fid

instance (s : State) (id : RecordId) : Decidable (Findable s id) :=
  inferInstanceAs (Decidable (∃ fid ∈ s.updates.deltas.place id, _))

/-- `GetEdge`. A record that is not found has no property. -/
def getEdge (o : UpdateOrder.Options) (s : State) (id : RecordId) (propertyId : Nat) :
    Option Bytes :=
  if Findable s id then UpdateOrder.getEdge o s.updates id propertyId else none

/-! ## The steps -/

/-- The flush of a memtable: its records are in the file now, where no read looks. -/
def publish (o : UpdateOrder.Options) (fid : Nat) (s : State) : Option State :=
  (UpdateOrder.step o s.updates (.move (.publish fid))).map fun updates =>
    { s with
      updates
      sst := fun id => if s.updates.deltas.place id = some fid then some fid else s.sst id
      data := fun i => if i = fid then updates.deltas.column i else s.data i }

/-- `MergeChain`. The records have to be in the file of the chain; whether a read finds them there
does not matter. -/
def mergeChain (o : UpdateOrder.Options) (fid propertyId count : Nat) (s : State) : Option State :=
  let d := s.updates.deltas
  let c := d.chains fid propertyId
  if c.targetIsPersistent ∧ d.base fid = .file ∧ ∀ file ∈ c.deltas.take count, ∀ r ∈ file,
      d.place r.id = some fid ∨ s.sst r.id = some fid then
    some { s with
      updates :=
        { s.updates with
          deltas := DeltaHandOff.merged o.lengths fid propertyId count s.updates.deltas } }
  else none

/-- A rebuild collects the files of the levels and copies their slots. -/
def collect (s : State) : Option State :=
  if s.building.isNone then
    some { s with building := some fun id => (s.sst id).map fun fid p => s.data fid p id }
  else none

/-- The rebuild has written its files and publishes the snapshot. -/
def publishSnapshot (n : Nat) (fileOf : RecordId → Fin (n + 1)) (s : State) : Option State :=
  s.building.map fun collected =>
    let d := s.updates.deltas
    let isNew := fun fid => decide (d.nextFid ≤ fid ∧ fid < d.nextFid + (n + 1))
    { s with
      updates :=
        { s.updates with
          deltas :=
            { d with
              base := fun fid => if isNew fid then .file else d.base fid
              nextFid := d.nextFid + (n + 1)
              place := fun id =>
                if (collected id).isSome then some (d.nextFid + fileOf id) else d.place id
              column := fun fid p id =>
                if isNew fid then ((collected id).map fun slots => slots p).getD []
                else d.column fid p id } }
      current := isNew
      building := none }

inductive Action where
  | updateEdge (located : Nat) (inMemtable : Bool) (id : RecordId) (properties : List (Nat × Bytes))
  | manage (a : PropertyUpdateManager.Action)
  | callBack (k : Nat) (files : List (Nat × Bool))
  | put (id : RecordId) (value : Nat → Bytes)
  | switch
  | publish (fid : Nat)
  | markTargetPersistent (fid propertyId : Nat)
  | mergeChain (fid propertyId count : Nat)
  | collect
  | publishSnapshot (n : Nat) (fileOf : RecordId → Fin (n + 1))

def State.setUpdates (s : State) (updates : UpdateOrder.State) : State := { s with updates }

/-- The steps that are as in the LSM mode, and when they are possible. -/
def shared (s : State) : Action → Option UpdateOrder.Action
  | .updateEdge located inMemtable id properties =>
    if Findable s id then some (.updateEdge located inMemtable id properties) else none
  | .manage a => some (.manage a)
  | .callBack k files =>
    if ∀ g ∈ UpdateOrder.groupAt s.updates k, ∀ r ∈ g.records, Findable s r.id then
      some (.callBack k files)
    else none
  | .put id value => some (.move (.put id value))
  | .switch => some (.move .switch)
  | .markTargetPersistent fid propertyId => some (.move (.markTargetPersistent fid propertyId))
  | .publish _ | .mergeChain _ _ _ | .collect | .publishSnapshot _ _ => none

def step (o : UpdateOrder.Options) (s : State) : Action → Option State
  | .publish fid => publish o fid s
  | .mergeChain fid propertyId count => mergeChain o fid propertyId count s
  | .collect => collect s
  | .publishSnapshot n fileOf => publishSnapshot n fileOf s
  | a => (shared s a).bind fun b => (UpdateOrder.step o s.updates b).map s.setUpdates

/-- A group is handed over after the updates with smaller commits of its records, its values fit
their columns, and no update replaces the pending value of a newer record. When a snapshot is
published, no update of its records has been handed over. -/
def KeepsNewest (o : UpdateOrder.Options) (s : State) : Action → Prop
  | .updateEdge located inMemtable id properties =>
    KeepsBytes o 0 s.updates (.updateEdge located inMemtable id properties)
  | .manage a => KeepsBytes o 0 s.updates (.manage a)
  | .callBack k files => KeepsBytes o 0 s.updates (.callBack k files)
  | .publishSnapshot _ _ => ∀ collected ∈ s.building, ∀ q ∈ s.updates.deltas.acknowledged,
      (collected q.2.id).isNone
  | _ => True

instance (o : UpdateOrder.Options) (s : State) (a : Action) : Decidable (KeepsNewest o s a) :=
  match a with
  | .updateEdge located inMemtable id properties =>
    inferInstanceAs (Decidable (KeepsBytes o 0 s.updates
      (.updateEdge located inMemtable id properties)))
  | .manage a => inferInstanceAs (Decidable (KeepsBytes o 0 s.updates (.manage a)))
  | .callBack k files => inferInstanceAs (Decidable (KeepsBytes o 0 s.updates (.callBack k files)))
  | .publishSnapshot _ _ => inferInstanceAs (Decidable (∀ collected ∈ s.building, _))
  | .put _ _ | .switch | .publish _ | .markTargetPersistent _ _ | .mergeChain _ _ _ | .collect =>
    isTrue trivial

/-! ## The invariant is kept -/

variable {o : UpdateOrder.Options} {s s' : State}

/-- The records move, and no update is handed over. -/
theorem readsInv_of_deltas {u : UpdateOrder.State} {d : DeltaHandOff.State} (h : ReadsInv o 0 u)
    (hinv : DeltaHandOff.Inv o.lengths d) (hack : d.acknowledged = u.deltas.acknowledged)
    (hplace : ∀ id, u.deltas.place id ≠ none → d.place id ≠ none) :
    ReadsInv o 0 { u with deltas := d } where
  order :=
    { deltas := hinv
      newest := hack.symm ▸ h.order.newest
      known := h.order.known
      passed := fun x hx => hack.symm ▸ h.order.passed x hx
      attached := fun p hp => h.order.attached p (hack ▸ hp) }
  handed := h.handed
  fits _ _ _ p hp := absurd hp (Nat.not_lt_zero p)
  sourced := h.sourced.imp fun _ hx => ⟨hplace _ hx.1, hx.2⟩

/-- New files take records over that have no update. -/
theorem inv_publishSnapshot {lengths : Nat → Nat} {d : DeltaHandOff.State} {n : Nat}
    {fileOf : RecordId → Fin (n + 1)} {collected : RecordId → Option (Nat → Bytes)}
    {isNew : Nat → Bool} (h : DeltaHandOff.Inv lengths d)
    (hnew : ∀ fid, isNew fid = true ↔ d.nextFid ≤ fid ∧ fid < d.nextFid + (n + 1))
    (hfree : ∀ q ∈ d.acknowledged, (collected q.2.id).isNone) :
    DeltaHandOff.Inv lengths
      { d with
        base := fun fid => if isNew fid then .file else d.base fid
        nextFid := d.nextFid + (n + 1)
        place := fun id => if (collected id).isSome then some (d.nextFid + fileOf id)
          else d.place id
        column := fun fid p id =>
          if isNew fid then ((collected id).map fun slots => slots p).getD []
          else d.column fid p id } := by
  have hold : ∀ fid, d.base fid ≠ .absent → isNew fid = false := by
    intro fid hbase
    rw [Bool.eq_false_iff, Ne, hnew]
    exact fun hle => hbase (h.fresh fid hle.1).1
  have hplaced : ∀ id fid, d.place id = some fid → isNew fid = false := by
    intro id fid hfid
    apply hold
    rcases h.placed id fid hfid with hb | hb <;> simp [hb]
  have hfile : ∀ id, isNew (d.nextFid + fileOf id) = true := by
    intro id
    rw [hnew]
    exact ⟨Nat.le_add_right _ _, Nat.add_lt_add_left (fileOf id).isLt _⟩
  refine ⟨?_, ?_, ?_, ?_, h.acknowledged_fits, h.chain_acknowledged, h.registered, h.order, ?_, ?_⟩
  · dsimp only
    rw [hold d.active (by simp [h.active])]
    exact h.active
  · intro id fid hfid
    dsimp only at hfid ⊢
    split_ifs at hfid with hc
    · cases hfid
      simp [hfile id]
    · rw [hplaced id fid hfid]
      exact h.placed id fid hfid
  · intro fid hfid
    dsimp only at hfid ⊢
    have hnot : isNew fid = false := by
      rw [Bool.eq_false_iff, Ne, hnew]
      omega
    rw [hnot]
    exact h.fresh fid (by omega)
  · intro q hq
    dsimp only
    split_ifs
    · exact Option.some_ne_none _
    · exact h.acknowledged_placed q hq
  · -- A record with an update stays where it is.
    intro id fid hfid p r hlast
    obtain ⟨hmem, hid⟩ := DeltaHandOff.mem_of_lastAcknowledged hlast
    have hnone := hfree _ hmem
    rw [hid] at hnone
    dsimp only at hfid
    rw [if_neg (by simpa using hnone)] at hfid
    have hreads := h.reads id fid hfid p r hlast
    unfold DeltaHandOff.Reads at *
    dsimp only
    rw [hplaced id fid hfid]
    exact hreads
  · intro inputs columns hphase
    have hm := h.merging inputs columns hphase
    have hin : ∀ fid ∈ inputs, isNew fid = false := fun fid hf =>
      hold fid (by simp [hm.file fid hf])
    refine ⟨?_, hm.drained, ?_⟩
    · intro fid hf
      dsimp only
      rw [hin fid hf]
      exact hm.file fid hf
    · intro id fid hfid hf p
      dsimp only at hfid ⊢
      rw [hin fid hf]
      split_ifs at hfid with hc
      · cases hfid
        exact absurd (hin _ hf) (by simp [hfile id])
      · exact hm.columns id fid hfid hf p

theorem readsInv_shared {a : Action} {b : UpdateOrder.Action} {u : UpdateOrder.State}
    (h : ReadsInv o 0 s.updates) (hok : KeepsNewest o s a) (hb : shared s a = some b)
    (hs : UpdateOrder.step o s.updates b = some u) : ReadsInv o 0 u := by
  refine UpdateOrder.readsInv_step h ?_ hs
  cases a with
  | updateEdge located inMemtable id properties =>
    simp only [shared] at hb
    split at hb
    · cases hb
      exact hok
    · cases hb
  | manage a =>
    cases hb
    exact hok
  | callBack k files =>
    simp only [shared] at hb
    split at hb
    · cases hb
      exact hok
    · cases hb
  | put id value =>
    cases hb
    exact ⟨trivial, fun p hp => absurd hp (Nat.not_lt_zero p)⟩
  | switch =>
    cases hb
    exact ⟨trivial, trivial⟩
  | markTargetPersistent fid propertyId =>
    cases hb
    exact ⟨trivial, trivial⟩
  | publish _ | mergeChain _ _ _ | collect | publishSnapshot _ _ => cases hb

theorem readsInv_publish {fid : Nat} (h : ReadsInv o 0 s.updates) (hs : publish o fid s = some s') :
    ReadsInv o 0 s'.updates := by
  obtain ⟨u, hu, rfl⟩ := Option.map_eq_some_iff.mp hs
  exact UpdateOrder.readsInv_step (a := .move (.publish fid)) h ⟨trivial, trivial⟩ hu

theorem readsInv_mergeChain {fid propertyId count : Nat} (h : ReadsInv o 0 s.updates)
    (hs : mergeChain o fid propertyId count s = some s') : ReadsInv o 0 s'.updates := by
  simp only [mergeChain] at hs
  split at hs
  · cases hs
    exact readsInv_of_deltas h (DeltaHandOff.inv_merged h.order.deltas) rfl fun _ hid => hid
  · cases hs

theorem readsInv_publishSnapshot {n : Nat} {fileOf : RecordId → Fin (n + 1)}
    (h : ReadsInv o 0 s.updates) (hok : KeepsNewest o s (.publishSnapshot n fileOf))
    (hs : publishSnapshot n fileOf s = some s') : ReadsInv o 0 s'.updates := by
  obtain ⟨collected, hb, rfl⟩ := Option.map_eq_some_iff.mp hs
  refine readsInv_of_deltas h (inv_publishSnapshot h.order.deltas (by simp) (hok collected hb))
    rfl ?_
  intro id hid
  dsimp only
  split_ifs
  · exact Option.some_ne_none _
  · exact hid

theorem readsInv_step {a : Action} (h : ReadsInv o 0 s.updates) (hok : KeepsNewest o s a)
    (hs : step o s a = some s') : ReadsInv o 0 s'.updates := by
  have hshared : (shared s a).bind (fun b => (UpdateOrder.step o s.updates b).map s.setUpdates) =
      some s' → ReadsInv o 0 s'.updates := by
    intro hs
    obtain ⟨b, hb, hs⟩ := Option.bind_eq_some_iff.mp hs
    obtain ⟨u, hu, rfl⟩ := Option.map_eq_some_iff.mp hs
    exact readsInv_shared h hok hb hu
  cases a with
  | publish fid => exact readsInv_publish h hs
  | mergeChain fid propertyId count => exact readsInv_mergeChain h hs
  | collect =>
    simp only [step, collect] at hs
    split at hs
    · cases hs
      exact h
    · cases hs
  | publishSnapshot n fileOf => exact readsInv_publishSnapshot h hok hs
  | _ => exact hshared hs

theorem readsInv_of_reach {c : Nat} (h : Lib.Reach (step o) (KeepsNewest o) (initial o c) s) :
    ReadsInv o 0 s.updates :=
  h.invariant (UpdateOrder.readsInv_initial o 0 c) fun _ _ _ hinv hok hs =>
    readsInv_step hinv hok hs

/-! ## The newest update is read -/

section

open UpdateOrder (IsNewest)
open PropertyUpdateManager (Delta)

variable {u : UpdateOrder.State} {id : RecordId} {p n : Nat}

theorem key_of_sourced (h : ReadsInv o n u) {x : Delta} (hx : x ∈ u.manager.acknowledged)
    (hid : x.2.id = id) (hp : x.1.propertyId = p) : x.key = pendingKey o id p := by
  rw [(h.sourced.acknowledged x hx).2, hid, hp]

/-- What stands for an update of the current record is an update of that record. -/
theorem of_key_of_base_le (h : ReadsInv o n u) (hcurrent : IsCurrent u id) {y : Delta}
    (hy : y ∈ u.manager.acknowledged) (hkey : y.key = pendingKey o id p)
    (hle : id.baseSequence ≤ y.2.baseSequence) : y.2.id = id ∧ y.1.propertyId = p := by
  have hge := hcurrent y.2.id (h.sourced.acknowledged y hy).1 (UpdateOrder.sameEdge_of_key hkey)
  exact UpdateOrder.id_of_key hkey (Nat.le_antisymm hge hle)

/-- A pending value of the current record is its newest update. -/
theorem newest_of_pending (h : ReadsInv o n u) {v : PropertyUpdateManager.PendingValue}
    (hv : u.manager.pending (pendingKey o id p) = some v)
    (hbase : v.baseSequence = id.baseSequence) :
    ∃ y, IsNewest u y ∧ (y.2.id = id ∧ y.1.propertyId = p) ∧ y.2.value = v.value := by
  obtain ⟨y, hy, hkey, rfl⟩ := h.handed.shown.known _ v hv
  have hyid := UpdateOrder.id_of_key hkey hbase
  refine ⟨y, ⟨hy, fun z hz hzp hzid => ?_⟩, hyid, rfl⟩
  exact h.handed.shown.newest _ _ hv z hz
    (key_of_sourced h hz (hzid.trans hyid.1) (hzp.trans hyid.2))

/-- Without a pending value, a newest update of the current record was handed over. -/
theorem newest_of_attached (h : ReadsInv o n u) (hcurrent : IsCurrent u id)
    (hnone : UpdateOrder.lookupExact o u id p = none) {x : Delta}
    (hx : x ∈ u.manager.acknowledged) (hid : x.2.id = id) (hp : x.1.propertyId = p) :
    ∃ y, IsNewest u y ∧ (y.2.id = id ∧ y.1.propertyId = p) ∧
      DeltaHandOff.getEdge u.deltas id p = some y.2.value := by
  have hpassed : ∀ z ∈ u.manager.acknowledged, z.2.id = id → z.1.propertyId = p →
      ∃ y ∈ u.manager.passed, (y.2.id = id ∧ y.1.propertyId = p) ∧
        z.2.commitSequence ≤ y.2.commitSequence := by
    intro z hz hzid hzp
    have hkey := key_of_sourced h hz hzid hzp
    have hzbase : z.2.baseSequence = id.baseSequence := congrArg RecordId.baseSequence hzid
    rcases h.handed.shown.shown z hz with ⟨v, hv, hle⟩ | ⟨y, hy, hyk, hcommit, hle⟩
    · rw [hkey] at hv
      obtain ⟨y, hy, hyk, rfl⟩ := h.handed.shown.known _ v hv
      have hyid := (of_key_of_base_le h hcurrent hy hyk (hzbase ▸ hle)).1
      have hbase : y.pendingValue.baseSequence = id.baseSequence :=
        congrArg RecordId.baseSequence hyid
      rw [UpdateOrder.lookupExact, hv, Option.filter_some, if_pos (decide_eq_true hbase)] at hnone
      cases hnone
    · have hyack := h.order.known.passed y hy
      exact ⟨y, hy, of_key_of_base_le h hcurrent hyack (hyk.trans hkey) (hzbase ▸ hle), hcommit⟩
  cases hfind : u.deltas.acknowledged.find? (fun q => q.1 = p ∧ q.2.id = id) with
  | none =>
    obtain ⟨y, hy, ⟨hyid, hyp⟩, -⟩ := hpassed x hx hid hp
    have := List.find?_eq_none.mp hfind _ (h.order.passed y hy)
    simp [hyid, hyp] at this
  | some q =>
    -- The update that was attached last is newer than all that were handed over.
    have hq : q.1 = p ∧ q.2.id = id := by simpa using List.find?_some hfind
    obtain ⟨y, hy, hyq, hyr⟩ := h.order.attached q (List.mem_of_find?_eq_some hfind)
    rw [← hyr] at hq
    refine ⟨y, ⟨h.order.known.passed y hy, fun z hz hzp hzid => ?_⟩, ⟨hq.2, hyq.trans hq.1⟩, ?_⟩
    · obtain ⟨w, hw, ⟨hwid, hwp⟩, hle⟩ :=
        hpassed z hz (hzid.trans hq.2) (hzp.trans (hyq.trans hq.1))
      have hmax := UpdateOrder.le_find?_newest h.order.newest hfind _ (h.order.passed w hw) hwp hwid
      rw [← hyr] at hmax
      exact hle.trans hmax
    · apply DeltaHandOff.getEdge_of_inv h.order.deltas
      unfold DeltaHandOff.lastAcknowledged
      rw [hfind, Option.map_some, hyr]

end

open UpdateOrder (exampleOptions edge)

/-- The worker hands the updates of a buffer over to one file. -/
def handOver (fid : Nat) (sawMemtable : Bool) : List Action :=
  [.manage .startFlush, .manage .takeQueued, .callBack 0 [(fid, sawMemtable)], .manage .retire,
    .manage .retire, .manage .finishBuffer]

/-- The memtable of the edge is flushed, and a rebuild brings the edge into the snapshot. -/
def flushAndRebuild : List Action :=
  [.switch, .publish 0, .collect, .publishSnapshot 0 fun _ => 0]

/-- The update of an edge waits in its buffer during the rebuild, and is handed over to the file
of the snapshot. -/
def rebuilt : State :=
  (Lib.run (step exampleOptions) Lib.AnyStep (initial exampleOptions 1)
    ([.put edge fun _ => [5], .updateEdge 0 true edge [(0, [8])]] ++ flushAndRebuild ++
      handOver 2 false)).getD (initial exampleOptions 1)

theorem reach_rebuilt : Lib.Reach (step exampleOptions) (KeepsNewest exampleOptions)
    (initial exampleOptions 1) rebuilt :=
  Lib.reach_of_run (show Lib.run _ _ _ ([.put edge fun _ => [5], .updateEdge 0 true edge [(0, [8])]]
    ++ flushAndRebuild ++ handOver 2 false) = some rebuilt from rfl)

theorem isCurrent_rebuilt : IsCurrent rebuilt.updates edge := by
  intro id hid _
  have hplace : (if ((if (if id = edge then some 0 else none) = some 0 then some 0
      else (none : Option Nat)).map fun fid p => rebuilt.data fid p id).isSome then some 2
      else if id = edge then some 0 else none) ≠ none := hid
  by_cases heq : id = edge
  · rw [heq]
  · simp [heq] at hplace

end CsrUpdates

end RichGraph
