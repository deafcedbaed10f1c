-- What one step of the update manager does to the buffers: the state of a buffer
-- and its records after a buffer was taken, queued or filled, and the groups that
-- a flush makes of a buffer.
import RichGraph.PropertyUpdateManager

namespace RichGraph.PropertyUpdateManager

/-! ## What the buffers hold -/

def stateAt (bs : List Buffer) (i : Nat) : Option BufferState := bs[i]?.map (·.state)

/-- The buffer that the worker has taken. -/
def Worker.buffer : Worker → Option Nat
  | .calling i _ | .retiring i _ | .failing i _ => some i
  | .idle | .stopped => none

/-- What the worker has not passed to the callback yet. -/
def Worker.deltas : Worker → List Delta
  | .calling _ groups => groups.flatMap Group.deltas
  | _ => []

/-! ## One buffer changes its state -/

theorem stateAt_modify (bs : List Buffer) (i j : Nat) (f : Buffer → Buffer) :
    stateAt (bs.modify i f) j =
      bs[j]?.map fun b => if i = j then (f b).state else b.state := by
  unfold stateAt
  rw [List.getElem?_modify]
  cases bs[j]? with
  | none => rfl
  | some b => by_cases h : i = j <;> simp [h]

theorem stateAt_append (o : PropertyUpdateOptions) (s : State) (i j : Nat)
    (batch : List BufferedPropertyUpdate) :
    stateAt (s.append o i batch).buffers j = stateAt s.buffers j := by
  simp only [State.append]
  rw [stateAt_modify]
  simp only [ite_self]
  rfl

theorem stateAt_withState (bs : List Buffer) (i j : Nat) (st : BufferState) :
    stateAt (bs.modify i (Buffer.withState st)) j =
      if i = j then (stateAt bs j).map (fun _ => st) else stateAt bs j := by
  rw [stateAt_modify]
  unfold stateAt
  cases bs[j]? with
  | none => simp
  | some b => by_cases h : i = j <;> simp [h, Buffer.withState]

theorem stateAt_withState_self {bs : List Buffer} {i : Nat} {st st' : BufferState}
    (hi : stateAt bs i = some st') :
    stateAt (bs.modify i (Buffer.withState st)) i = some st := by
  rw [stateAt_withState, if_pos rfl, hi]
  rfl

theorem recordsAt_modify {s s' : State} {i : Nat} {f : Buffer → Buffer}
    (h : s'.buffers = s.buffers.modify i f) (j : Nat) :
    s'.recordsAt j =
      (s.buffers[j]?.map fun b => if i = j then (f b).records else b.records).getD [] := by
  unfold State.recordsAt
  rw [h, List.getElem?_modify]
  cases s.buffers[j]? with
  | none => rfl
  | some b => by_cases hij : i = j <;> simp [hij]

theorem recordsAt_withState {s s' : State} {i : Nat} {st : BufferState}
    (h : s'.buffers = s.buffers.modify i (Buffer.withState st)) (j : Nat) :
    s'.recordsAt j = s.recordsAt j := by
  rw [recordsAt_modify h]
  simp [State.recordsAt, Buffer.withState]

theorem stateAt_eq_of_getElem? {bs : List Buffer} {i : Nat} {b : Buffer} (h : bs[i]? = some b) :
    stateAt bs i = some b.state := by simp [stateAt, h]

/-! ## Taking a free buffer -/

theorem takeFree_cases (s : State) :
    (s.takeFree = s ∧ ∀ b ∈ s.buffers, b.state ≠ .kFree) ∨
      ∃ i b, s.buffers[i]? = some b ∧ b.state = .kFree ∧
        s.takeFree = { s with
          buffers := s.buffers.modify i (Buffer.withState .kActive)
          activeBuffer := some i } := by
  unfold State.takeFree
  split
  · rename_i i hi
    obtain ⟨hlt, hfree, -⟩ := List.findIdx?_eq_some_iff_getElem.mp hi
    exact Or.inr ⟨i, s.buffers[i], List.getElem?_eq_getElem hlt, by simpa using hfree, rfl⟩
  · rename_i hnone
    refine Or.inl ⟨rfl, fun b hb => ?_⟩
    simpa using List.findIdx?_eq_none_iff.mp hnone b hb

theorem takeFree_fields (s : State) :
    s.takeFree.nextCommitSequence = s.nextCommitSequence ∧
      s.takeFree.acknowledged = s.acknowledged ∧ s.takeFree.passed = s.passed ∧
      s.takeFree.flushers = s.flushers ∧ s.takeFree.flushed = s.flushed ∧
      s.takeFree.fatalError = s.fatalError ∧ s.takeFree.worker = s.worker ∧
      s.takeFree.queuedBuffers = s.queuedBuffers ∧
      s.takeFree.runningFlushes = s.runningFlushes := by
  unfold State.takeFree
  split <;> simp

/-! ## Queueing the active buffer -/

/-- The state between the two halves of `QueueActiveBuffer`. -/
def State.afterPush (s : State) (i : Nat) : State :=
  { s with
    buffers := s.buffers.modify i (Buffer.withState .kQueued)
    queuedBuffers := s.queuedBuffers ++ [i]
    activeBuffer := none }

theorem queueActiveBuffer_cases (s : State) :
    (s.queueActiveBuffer = s ∧ ∀ i, s.activeBuffer = some i → s.recordsAt i = []) ∨
      ∃ i, s.activeBuffer = some i ∧ s.queueActiveBuffer = (s.afterPush i).takeFree := by
  unfold State.queueActiveBuffer
  split
  · rename_i hnone
    exact Or.inl ⟨rfl, by simp [hnone]⟩
  · rename_i i hi
    split
    · rename_i hempty
      refine Or.inl ⟨rfl, fun j hj => ?_⟩
      rw [hi] at hj
      cases hj
      exact hempty
    · exact Or.inr ⟨i, hi, rfl⟩

/-! ## A batch is committed -/

theorem append_records (o : PropertyUpdateOptions) (s : State) (i : Nat)
    (batch : List BufferedPropertyUpdate) {b : Buffer} (hb : s.buffers[i]? = some b) :
    (s.append o i batch).recordsAt i =
      s.recordsAt i ++ batch.map (stamp s.nextCommitSequence) := by
  rw [recordsAt_modify (s := s) rfl]
  simp [State.recordsAt, hb]

/-! ## The callers -/

theorem active_of_ensured {s : State} {i : Nat} (h : s.ensured = .active i) :
    s.activeBuffer = some i := by
  unfold State.ensured at h
  split at h
  · cases h
  · split at h
    · cases h
    · split at h
      · cases h
      · cases h
        assumption

/-! ## The worker -/

/-- The actions of the callers. -/
def Action.OfCaller : Action → Prop
  | .submit _ | .wakeSubmitter _ | .startFlush | .wakeFlusher _ => True
  | _ => False

/-- What the worker does in one step, and the end of the manager. -/
inductive WorkerStep (s : State) : Action → State → Prop where
  | leave : s.worker = .idle → WorkerStep s .takeQueued { s with worker := .stopped }
  | take {i : Nat} {rest : List Nat} : s.worker = .idle → s.queuedBuffers = i :: rest →
      WorkerStep s .takeQueued { s with
        queuedBuffers := rest
        buffers := s.buffers.modify i (Buffer.withState .kFlushing)
        runningFlushes := s.runningFlushes + 1
        worker := .calling i (groupsOf (s.recordsAt i)) }
  | call {i k : Nat} {groups : List Group} {g : Group} : s.worker = .calling i groups →
      groups[k]? = some g → WorkerStep s (.callBack k none)
        { s with worker := .calling i (groups.eraseIdx k), passed := s.passed ++ g.deltas }
  | fail {i k : Nat} {groups : List Group} {e : String} : s.worker = .calling i groups →
      WorkerStep s (.callBack k (some e)) { s with worker := .failing i e }
  | called {i : Nat} : s.worker = .calling i [] →
      WorkerStep s .retire { s with worker := .retiring i (s.recordsAt i) }
  | retire {i : Nat} {u : BufferedPropertyUpdate} {us : List BufferedPropertyUpdate} :
      s.worker = .retiring i (u :: us) → WorkerStep s .retire
        { s with worker := .retiring i us, pending := retirePending s.pending u }
  | free {i : Nat} : s.worker = .retiring i [] → WorkerStep s .finishBuffer { s with
      worker := .idle
      runningFlushes := s.runningFlushes - 1
      buffers := s.buffers.modify i fun _ =>
        ⟨if s.activeBuffer = none then .kActive else .kFree, [], 0⟩
      activeBuffer := if s.activeBuffer = none then some i else s.activeBuffer }
  | failed {i : Nat} {e : String} : s.worker = .failing i e → WorkerStep s .finishBuffer { s with
      worker := .idle
      runningFlushes := s.runningFlushes - 1
      buffers := s.buffers.modify i (Buffer.withState .kFailed)
      fatalError := if s.fatalError = "" then e else s.fatalError }
  | stop : WorkerStep s .stop { s with stop := true }

theorem workerStep_of_step {o : PropertyUpdateOptions} {s s' : State} {a : Action}
    (ha : ¬ a.OfCaller) (h : step o s a = some s') : WorkerStep s a s' := by
  cases a with
  | takeQueued =>
    simp only [step, State.takeQueued] at h
    split at h
    · cases h
    · rename_i hidle
      rw [not_not] at hidle
      split at h
      · split at h <;> cases h
        exact .leave hidle
      · rename_i hqueue
        cases h
        exact .take hidle hqueue
  | callBack k error =>
    simp only [step, State.callBack] at h
    split at h
    · rename_i hw
      split at h
      · rename_i hg
        cases h
        exact .call hw hg
      · cases h
        exact .fail hw
      · cases h
    · cases h
  | retire =>
    simp only [step, State.retire] at h
    split at h
    · rename_i hw
      cases h
      exact .called hw
    · rename_i hw
      cases h
      exact .retire hw
    · cases h
  | finishBuffer =>
    simp only [step, State.finishBuffer] at h
    split at h
    · rename_i hw
      cases h
      exact .free hw
    · rename_i hw
      cases h
      exact .failed hw
    · cases h
  | stop =>
    cases h
    exact .stop
  | _ => exact absurd trivial ha

theorem count_addToGroups (u : BufferedPropertyUpdate) (gs : List Group) (x : Delta) :
    ((addToGroups u gs).flatMap Group.deltas).count x =
      (gs.flatMap Group.deltas).count x + [u.delta].count x := by
  induction gs with
  | nil => simp [addToGroups, Group.deltas, BufferedPropertyUpdate.delta]
  | cons g gs ih =>
    unfold addToGroups
    split
    · rename_i ht
      have hnew : (g.target, u.record) = u.delta := by
        rw [BufferedPropertyUpdate.delta, ht]
      simp only [List.flatMap_cons, Group.deltas, List.map_append, List.map_cons, List.map_nil,
        List.count_append, hnew]
      omega
    · simp only [List.flatMap_cons, List.count_append, ih]
      omega

/-- The groups of a flush hold each record of the buffer once. -/
theorem count_groupsOf (records : List BufferedPropertyUpdate) (x : Delta) :
    ((groupsOf records).flatMap Group.deltas).count x = (records.map (·.delta)).count x := by
  have hfold : ∀ gs : List Group,
      ((records.foldl (fun gs u => addToGroups u gs) gs).flatMap Group.deltas).count x =
        (gs.flatMap Group.deltas).count x + (records.map (·.delta)).count x := by
    induction records with
    | nil => simp
    | cons u us ih =>
      intro gs
      rw [List.foldl_cons, ih, count_addToGroups]
      simp only [List.map_cons, List.count_cons, List.count_nil]
      omega
  simpa [groupsOf] using hfold []

/-! ## A small manager -/

/-- Two buffers of two records each. -/
def twoBuffers : PropertyUpdateOptions := ⟨2, 2, 1000, 1⟩

/-- An update of the edge from 1 to `dst`. -/
def updateOf (dst : Nat) : BufferedPropertyUpdate where
  target := ⟨.kEdge, 0, 5, 5, 0⟩
  record := ⟨1, dst, 3, 0, true, 0, bytes "v"⟩
  targetIsPersistent := true

/-- The worker flushes one buffer of two records with one target. -/
def flushTwo : List Action :=
  [.takeQueued, .callBack 0 none, .retire, .retire, .retire, .finishBuffer]

end RichGraph.PropertyUpdateManager
