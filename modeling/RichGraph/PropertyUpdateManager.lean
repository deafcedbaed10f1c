-- The property update manager: callers of `SubmitBatch` and `FlushAndWait`,
-- one worker, and a few buffers between them. Each step is one section that
-- the code runs without giving up `mutex_`, or one unlocked act of the worker.
import Mathlib.Data.List.Basic
import Mathlib.Logic.Function.Basic
import RichGraph.Lib.Runs
import RichGraph.Types

namespace RichGraph.PropertyUpdateManager

structure PropertyUpdateOptions where
  bufferCount : Nat
  bufferCapacityRecords : Nat
  bufferCapacityBytes : Nat
  /-- `sizeof(BufferedPropertyUpdate)`, which the platform fixes. -/
  sizeofUpdate : Nat

structure BufferedPropertyUpdate where
  target : PropertyDeltaTarget
  record : PropertyDeltaRecord
  targetIsPersistent : Bool
  deriving DecidableEq, Repr

/-- What `UpdateEdge` submits for one property of the record that it has located. -/
def bufferedUpdate (kind : PropertyObjectKind) (shardId targetId : Nat) (inMemtable : Bool)
    (id : RecordId) (property : Nat × Bytes) : BufferedPropertyUpdate where
  target := ⟨kind, shardId, targetId, targetId, property.1⟩
  record := ⟨id.src, id.dst, id.baseSequence, 0, id.isOut, id.edgeType, property.2⟩
  targetIsPersistent := !inMemtable

inductive BufferState where
  | kFree
  | kActive
  | kQueued
  | kFlushing
  | kFailed
  deriving DecidableEq, Repr

structure Buffer where
  state : BufferState
  records : List BufferedPropertyUpdate
  bytes : Nat
  deriving DecidableEq, Repr

structure PendingKey where
  kind : PropertyObjectKind
  shardId : Nat
  propertyId : Nat
  src : Nat
  dst : Nat
  isOut : Bool
  edgeType : UInt8
  deriving DecidableEq, Repr

structure PendingValue where
  baseSequence : Nat := 0
  commitSequence : Nat := 0
  value : Bytes := []
  deriving DecidableEq, Repr

def makePendingKey (u : BufferedPropertyUpdate) : PendingKey where
  kind := u.target.kind
  shardId := u.target.shardId
  propertyId := u.target.propertyId
  src := u.record.src
  dst := u.record.dst
  isOut := u.record.isOut
  edgeType := u.record.edgeType

/-- `pending_`; the buckets only spread the locks. -/
abbrev Pending := PendingKey → Option PendingValue

/-- `PublishPending`: a larger or equal commit takes the place of the value. -/
def publishPending (p : Pending) (u : BufferedPropertyUpdate) : Pending :=
  let value := (p (makePendingKey u)).getD {}
  Function.update p (makePendingKey u) (some
    (if value.commitSequence ≤ u.record.commitSequence then
      { baseSequence := u.record.baseSequence
        commitSequence := u.record.commitSequence
        value := u.record.value }
    else value))

/-- One turn of `RetirePending`: only the value of the same commit is erased. -/
def retirePending (p : Pending) (u : BufferedPropertyUpdate) : Pending :=
  match p (makePendingKey u) with
  | some v =>
    if v.commitSequence = u.record.commitSequence then
      Function.update p (makePendingKey u) none
    else p
  | none => p

/-! ## The groups of a flush -/

/-- What the callback gets: a target and its records, in buffer order. -/
structure Group where
  target : PropertyDeltaTarget
  targetIsPersistent : Bool
  records : List PropertyDeltaRecord
  deriving DecidableEq, Repr

def addToGroups (u : BufferedPropertyUpdate) : List Group → List Group
  | [] => [⟨u.target, u.targetIsPersistent, [u.record]⟩]
  | g :: gs =>
    if g.target = u.target then
      ⟨g.target, g.targetIsPersistent || u.targetIsPersistent, g.records ++ [u.record]⟩ :: gs
    else g :: addToGroups u gs

/-- The map that `FlushBuffer` builds from the records of a buffer. -/
def groupsOf (records : List BufferedPropertyUpdate) : List Group :=
  records.foldl (fun gs u => addToGroups u gs) []

/-- A record with its target: what is acknowledged, and what a callback gets. -/
abbrev Delta := PropertyDeltaTarget × PropertyDeltaRecord

def BufferedPropertyUpdate.delta (u : BufferedPropertyUpdate) : Delta := (u.target, u.record)

def Group.deltas (g : Group) : List Delta := g.records.map fun r => (g.target, r)

/-! ## The state -/

/-- Where the worker is in `WorkerMain`. -/
inductive Worker where
  | idle
  | calling (buffer : Nat) (groups : List Group)
  | retiring (buffer : Nat) (records : List BufferedPropertyUpdate)
  | failing (buffer : Nat) (error : String)
  | stopped
  deriving DecidableEq, Repr

/-- A caller that sleeps in `EnsureActiveBuffer`: in the first call of
`SubmitBatch`, or in the one after it queued the active buffer. -/
structure Waiter where
  batch : List BufferedPropertyUpdate
  rotated : Bool
  deriving DecidableEq, Repr

/-- The manager with its callers. The last four fields are history: the
acknowledged records, the records that callbacks got, what was acknowledged
when each successful `FlushAndWait` started, and the errors given to callers. -/
structure State where
  nextCommitSequence : Nat
  pending : Pending
  buffers : List Buffer
  queuedBuffers : List Nat
  activeBuffer : Option Nat
  runningFlushes : Nat
  stop : Bool
  fatalError : String
  worker : Worker
  submitters : List Waiter
  flushers : List (List Delta)
  acknowledged : List Delta
  passed : List Delta
  flushed : List (List Delta)
  errors : List String

/-- The constructor: buffer 0 is active, all others are free. -/
def initial (o : PropertyUpdateOptions) (initialCommitSequence : Nat) :
    State where
  nextCommitSequence := max 1 initialCommitSequence
  pending := fun _ => none
  buffers := ⟨.kActive, [], 0⟩ :: List.replicate (o.bufferCount - 1) ⟨.kFree, [], 0⟩
  queuedBuffers := []
  activeBuffer := some 0
  runningFlushes := 0
  stop := false
  fatalError := ""
  worker := .idle
  submitters := []
  flushers := []
  acknowledged := []
  passed := []
  flushed := []
  errors := []

def State.recordsAt (s : State) (i : Nat) : List BufferedPropertyUpdate :=
  (s.buffers[i]?.map (·.records)).getD []

def State.bytesAt (s : State) (i : Nat) : Nat := (s.buffers[i]?.map (·.bytes)).getD 0

def Buffer.withState (st : BufferState) (b : Buffer) : Buffer := { b with state := st }

def State.fail (s : State) (error : String) : State := { s with errors := s.errors ++ [error] }

/-! ## The sections -/

/-- The loop over the buffers that makes the first free one active. -/
def State.takeFree (s : State) : State :=
  match s.buffers.findIdx? (fun b => b.state = .kFree) with
  | some i =>
    { s with
      buffers := s.buffers.modify i (Buffer.withState .kActive)
      activeBuffer := some i }
  | none => s

def State.queueActiveBuffer (s : State) : State :=
  match s.activeBuffer with
  | none => s
  | some i =>
    if s.recordsAt i = [] then s
    else
      { s with
        buffers := s.buffers.modify i (Buffer.withState .kQueued)
        queuedBuffers := s.queuedBuffers ++ [i]
        activeBuffer := none : State }.takeFree

/-- How `EnsureActiveBuffer` leaves its loop, or that it goes to sleep. -/
inductive Ensured where
  | failed (error : String)
  | blocked
  | active (i : Nat)

def State.ensured (s : State) : Ensured :=
  if s.fatalError ≠ "" then .failed s.fatalError
  else if s.stop then .failed "property update manager is stopping"
  else match s.activeBuffer with
    | none => .blocked
    | some i => .active i

variable (o : PropertyUpdateOptions)

def estimateBytes (u : BufferedPropertyUpdate) : Nat := o.sizeofUpdate + u.record.value.length

def batchBytes (batch : List BufferedPropertyUpdate) : Nat := (batch.map (estimateBytes o)).sum

/-- The byte loop of `SubmitBatch`: the bytes so far never pass the capacity. -/
def bytesFit : Nat → List BufferedPropertyUpdate → Bool
  | _, [] => true
  | sum, u :: us =>
    if estimateBytes o u > o.bufferCapacityBytes - sum then false
    else bytesFit (sum + estimateBytes o u) us

/-- The checks of `SubmitBatch` before it takes the lock. -/
def checkBatch (batch : List BufferedPropertyUpdate) : Option String :=
  if batch = [] then some "property update batch must not be empty"
  else if !bytesFit o 0 batch then some "property update batch exceeds buffer_capacity_bytes"
  else if batch.length > o.bufferCapacityRecords then
    some "property update batch exceeds buffer_capacity_records"
  else none

def stamp (committed : Nat) (u : BufferedPropertyUpdate) :
    BufferedPropertyUpdate :=
  { u with record := { u.record with commitSequence := committed } }

/-- Adds the stamped records to buffer `i` and to the history. -/
def State.append (s : State) (i : Nat) (batch : List BufferedPropertyUpdate) : State :=
  let stamped := batch.map (stamp s.nextCommitSequence)
  { s with
    nextCommitSequence := s.nextCommitSequence + 1
    pending := stamped.foldl publishPending s.pending
    buffers := s.buffers.modify i fun b =>
      { b with records := b.records ++ stamped, bytes := b.bytes + batchBytes o batch }
    acknowledged := s.acknowledged ++ stamped.map (·.delta) }

/-- The end of `SubmitBatch`, from the commit sequence on. -/
def State.commitBatch (s : State) (i : Nat) (batch : List BufferedPropertyUpdate) : State :=
  let s' := s.append o i batch
  if (s'.recordsAt i).length ≥ o.bufferCapacityRecords ∨ s'.bytesAt i ≥ o.bufferCapacityBytes then
    s'.queueActiveBuffer
  else s'

/-- `SubmitBatch` from its second `EnsureActiveBuffer` on. -/
def State.submitRotated (s : State) (batch : List BufferedPropertyUpdate) : State :=
  match s.ensured with
  | .failed error => s.fail error
  | .blocked => { s with submitters := s.submitters ++ [⟨batch, true⟩] }
  | .active i => s.commitBatch o i batch

/-- `SubmitBatch` from its first `EnsureActiveBuffer` on. -/
def State.submitFirst (s : State) (batch : List BufferedPropertyUpdate) : State :=
  match s.ensured with
  | .failed error => s.fail error
  | .blocked => { s with submitters := s.submitters ++ [⟨batch, false⟩] }
  | .active i =>
    if s.recordsAt i ≠ [] ∧
        ((s.recordsAt i).length + batch.length > o.bufferCapacityRecords ∨
          s.bytesAt i + batchBytes o batch > o.bufferCapacityBytes) then
      s.queueActiveBuffer.submitRotated o batch
    else s.commitBatch o i batch

def State.submitBatch (s : State) (batch : List BufferedPropertyUpdate) : State :=
  match checkBatch o batch with
  | some error => s.fail error
  | none => s.submitFirst o batch

/-- A sleeper wakes, by a notification or on its own, and runs the loop body of
`EnsureActiveBuffer` after `free_cv_.wait`. -/
def State.wakeSubmitter (s : State) (k : Nat) : Option State :=
  match s.submitters[k]? with
  | none => none
  | some w =>
    let s' := { s with submitters := s.submitters.eraseIdx k : State }.takeFree
    some (if w.rotated then s'.submitRotated o w.batch else s'.submitFirst o w.batch)

/-- The rest of `FlushAndWait` once its wait is over. -/
def State.finishFlush (s : State) (snapshot : List Delta) : State :=
  if s.fatalError ≠ "" then s.fail s.fatalError
  else
    let s' := if s.activeBuffer = none then s.takeFree else s
    { s' with flushed := s'.flushed ++ [snapshot] }

/-- The predicate that `FlushAndWait` waits for. -/
def State.Idle (s : State) : Prop :=
  s.fatalError ≠ "" ∨ (s.queuedBuffers = [] ∧ s.runningFlushes = 0)

instance (s : State) : Decidable s.Idle := inferInstanceAs (Decidable (_ ∨ _))

def State.startFlush (s : State) : State :=
  if s.fatalError ≠ "" then s.fail s.fatalError
  else
    let s' := s.queueActiveBuffer
    if s'.Idle then s'.finishFlush s.acknowledged
    else { s' with flushers := s'.flushers ++ [s.acknowledged] }

def State.wakeFlusher (s : State) (k : Nat) : Option State :=
  match s.flushers[k]? with
  | none => none
  | some snapshot =>
    some (if s.Idle then
      { s with flushers := s.flushers.eraseIdx k : State }.finishFlush snapshot
    else s)

/-- The worker takes the front of the queue, or leaves when it is stopped. -/
def State.takeQueued (s : State) : Option State :=
  if s.worker ≠ .idle then none
  else match s.queuedBuffers with
    | [] => if s.stop then some { s with worker := .stopped } else none
    | i :: rest =>
      some { s with
        queuedBuffers := rest
        buffers := s.buffers.modify i (Buffer.withState .kFlushing)
        runningFlushes := s.runningFlushes + 1
        worker := .calling i (groupsOf (s.recordsAt i)) }

/-- The callback gets group `k` of the groups that are left: the map gives no
order. A callback that fails ends the flush with its error. -/
def State.callBack (s : State) (k : Nat) (error : Option String) : Option State :=
  match s.worker with
  | .calling i groups =>
    match groups[k]?, error with
    | some g, none =>
      some { s with
        worker := .calling i (groups.eraseIdx k)
        passed := s.passed ++ g.deltas }
    | some _, some e => some { s with worker := .failing i e }
    | none, _ => none
  | _ => none

/-- After the last group, and then one record of `RetirePending` at a time. -/
def State.retire (s : State) : Option State :=
  match s.worker with
  | .calling i [] => some { s with worker := .retiring i (s.recordsAt i) }
  | .retiring i (u :: us) =>
    some { s with worker := .retiring i us, pending := retirePending s.pending u }
  | _ => none

/-- The second locked section of `WorkerMain`. -/
def State.finishBuffer (s : State) : Option State :=
  match s.worker with
  | .retiring i [] =>
    let becomesActive := s.activeBuffer = none
    some { s with
      worker := .idle
      runningFlushes := s.runningFlushes - 1
      buffers := s.buffers.modify i fun _ =>
        ⟨if becomesActive then .kActive else .kFree, [], 0⟩
      activeBuffer := if becomesActive then some i else s.activeBuffer }
  | .failing i e =>
    some { s with
      worker := .idle
      runningFlushes := s.runningFlushes - 1
      buffers := s.buffers.modify i (Buffer.withState .kFailed)
      fatalError := if s.fatalError = "" then e else s.fatalError }
  | _ => none

inductive Action where
  | submit (batch : List BufferedPropertyUpdate)
  | wakeSubmitter (k : Nat)
  | startFlush
  | wakeFlusher (k : Nat)
  | takeQueued
  | callBack (k : Nat) (error : Option String)
  | retire
  | finishBuffer
  | stop
  deriving DecidableEq, Repr

def step (s : State) : Action → Option State
  | .submit batch => some (s.submitBatch o batch)
  | .wakeSubmitter k => s.wakeSubmitter o k
  | .startFlush => some s.startFlush
  | .wakeFlusher k => s.wakeFlusher k
  | .takeQueued => s.takeQueued
  | .callBack k error => s.callBack k error
  | .retire => s.retire
  | .finishBuffer => s.finishBuffer
  | .stop => some { s with stop := true }

end RichGraph.PropertyUpdateManager
