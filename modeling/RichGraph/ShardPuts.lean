-- The database in a run. A put takes one sequence for all the shards that it
-- writes. When no put writes some and leaves out others of the shards that a read
-- asks for, they have the same topology, and the two reads agree.
import RichGraph.ShardReads

namespace RichGraph

open Store PropertyUpdateManager

namespace Store

variable {o : Options} {s s' : Store}

/-! ## What a step of a store does to the history -/

/-- The edges that were put, with their sequences. -/
def topology (s : Store) : List (EdgeKey × Nat) := s.history.map fun p => (putKey p, putSequence p)

/-- What a put adds. -/
def putTopology (src dst : Nat) (mode : EdgeInsertMode) (isOut : Bool) (edgeType : UInt8)
    (sequence : Nat) : List (EdgeKey × Nat) :=
  match mode with
  | .kSingle => [(⟨src, dst, isOut, edgeType⟩, sequence)]
  | .kBidirectional =>
    [(⟨dst, src, !isOut, edgeType⟩, sequence), (⟨src, dst, isOut, edgeType⟩, sequence)]

theorem topology_putEdge {src dst : Nat} {payload : Bytes} {mode : EdgeInsertMode} {isOut : Bool}
    {edgeType : UInt8} (h : putEdge o src dst payload mode isOut edgeType s = some s') :
    s'.topology = putTopology src dst mode isOut edgeType s.nextSequence ++ s.topology ∧
      s'.nextSequence = s.nextSequence + 1 := by
  unfold putEdge at h
  split at h
  · cases mode with
    | kSingle =>
      cases h
      simp [topology, putTopology, putKey, putSequence]
    | kBidirectional =>
      cases h
      simp [topology, putTopology, putKey, putSequence]
  · cases h

theorem history_background {a : Action} (ha : GraphDb.Background a = true)
    (h : step o s a = some s') : s'.history = s.history ∧ s'.nextSequence = s.nextSequence := by
  cases a with
  | putEdge src dst payload mode isOut edgeType => cases ha
  | sortAdjacency fid src =>
    obtain ⟨-, -, -, hhist, hseq, -⟩ := sortAdjacency_cases h
    exact ⟨hhist, hseq⟩
  | publish fid =>
    obtain ⟨t, f, -, -, -, rfl⟩ := publish_cases h
    exact ⟨rfl, rfl⟩
  | pick | writeEnd | finish =>
    have hsame := sameTables_step h rfl
    exact ⟨hsame.history, hsame.nextSequence⟩

theorem lastPut_sequence (s : Store) (k : EdgeKey) :
    (s.lastPut k).map putSequence = (s.topology.find? fun p => p.1 = k).map Prod.snd := by
  unfold lastPut topology
  rw [List.find?_map, Option.map_map]
  rfl

end Store

namespace GraphDb

variable {schema : Schema} {db db' : GraphDb} {shards : List Nat}

/-! ## The invariant -/

/-- Every shard shows what was put, and the given shards have the same topology. -/
structure Together (schema : Schema) (shards : List Nat) (db : GraphDb) : Prop where
  shown : ∀ i < schema.shardCount, AllShown (schema.options i) (db.stores i)
  sequence_le : ∀ i < schema.shardCount, (db.stores i).nextSequence ≤ db.nextSequence
  same : ∀ i ∈ shards, ∀ j ∈ shards, (db.stores i).topology = (db.stores j).topology

/-- A put writes all the given shards or none of them, and in every shard that it writes it keeps
what the shard shows. -/
def WritesTogether (schema : Schema) (shards : List Nat) (db : GraphDb) (src dst : Nat)
    (incoming : List (String × Bytes)) (mode : EdgeInsertMode) (isOut : Bool) (edgeType : UInt8) :
    Prop :=
  ∀ touched ∈ schema.touchedShards incoming,
    ((∀ i ∈ shards, i ∈ touched) ∨ ∀ i ∈ shards, i ∉ touched) ∧
    ∀ i ∈ touched, ShownStep (schema.options i)
      { db.stores i with nextSequence := db.nextSequence }
      (shardPut schema src dst incoming mode isOut edgeType i)

instance (schema : Schema) (shards : List Nat) (db : GraphDb) (src dst : Nat)
    (incoming : List (String × Bytes)) (mode : EdgeInsertMode) (isOut : Bool) (edgeType : UInt8) :
    Decidable (WritesTogether schema shards db src dst incoming mode isOut edgeType) :=
  inferInstanceAs (Decidable (∀ touched ∈ schema.touchedShards incoming, _))

def TogetherStep (schema : Schema) (shards : List Nat) (db : GraphDb) : Action → Prop
  | .putEdge src dst incoming mode isOut edgeType =>
    WritesTogether schema shards db src dst incoming mode isOut edgeType
  | .updateEdge k incoming => db.pending.isNone →
    WritesTogether schema shards db k.src k.dst incoming .kSingle k.isOut k.edgeType
  | .shard i a => ShownStep (schema.options i) (db.stores i) a
  | _ => True

instance (schema : Schema) (shards : List Nat) (db : GraphDb) :
    (a : Action) → Decidable (TogetherStep schema shards db a)
  | .putEdge src dst incoming mode isOut edgeType =>
    inferInstanceAs (Decidable (WritesTogether schema shards db src dst incoming
      mode isOut edgeType))
  | .updateEdge .. => inferInstanceAs (Decidable (_ → WritesTogether ..))
  | .shard i a => inferInstanceAs (Decidable (ShownStep (schema.options i) (db.stores i) a))
  | .putNode | .retire _ | .deltas _ => inferInstanceAs (Decidable True)

theorem together_initial (schema : Schema) (shards : List Nat) (updatesEnabled : Bool) :
    Together schema shards (initial schema updatesEnabled) :=
  ⟨fun i _ => allShown_initial (schema.options i), fun _ _ => le_refl _, fun _ _ _ _ => rfl⟩

/-- One shard of a put. -/
theorem putTouched_spec {touched : List Nat} {put : Nat → Store.Action}
    (h : putTouched schema touched put db = some db') :
    db'.nextSequence = db.nextSequence + 1 ∧ (∀ i ∉ touched, db'.stores i = db.stores i) ∧
      ∀ i ∈ touched, Store.step (schema.options i)
        { db.stores i with nextSequence := db.nextSequence } (put i) = some (db'.stores i) := by
  unfold putTouched at h
  dsimp only at h
  split at h
  · rename_i hsome
    cases h
    refine ⟨rfl, fun i hi => ?_, fun i hi => ?_⟩
    · simp [hi]
    · obtain ⟨s, hs⟩ := Option.isSome_iff_exists.mp (List.all_eq_true.mp hsome i hi)
      simp [hi, hs]
  · cases h

theorem together_putTouched {src dst : Nat} {incoming : List (String × Bytes)}
    {mode : EdgeInsertMode} {isOut : Bool} {edgeType : UInt8} {touched : List Nat}
    (h : Together schema shards db) (htouched : schema.touchedShards incoming = some touched)
    (hok : WritesTogether schema shards db src dst incoming mode isOut edgeType)
    (hs : putTouched schema touched (shardPut schema src dst incoming mode isOut edgeType) db =
      some db') : Together schema shards db' := by
  obtain ⟨hseq, hrest, hput⟩ := putTouched_spec hs
  obtain ⟨hall, hshown⟩ := hok touched htouched
  have htop : ∀ i ∈ touched, (db'.stores i).topology =
      putTopology src dst mode isOut edgeType db.nextSequence ++ (db.stores i).topology ∧
      (db'.stores i).nextSequence = db.nextSequence + 1 :=
    fun i hi => topology_putEdge (hput i hi)
  refine ⟨fun i hi => ?_, fun i hi => ?_, fun i hi j hj => ?_⟩
  · by_cases hin : i ∈ touched
    · exact allShown_step (allShown_nextSequence (h.shown i hi) (h.sequence_le i hi))
        (hshown i hin) (hput i hin)
    · rw [hrest i hin]
      exact h.shown i hi
  · by_cases hin : i ∈ touched
    · rw [(htop i hin).2, hseq]
    · rw [hrest i hin, hseq]
      exact Nat.le_succ_of_le (h.sequence_le i hi)
  · rcases hall with hall | hnone
    · rw [(htop i (hall i hi)).1, (htop j (hall j hj)).1, h.same i hi j hj]
    · rw [hrest i (hnone i hi), hrest j (hnone j hj)]
      exact h.same i hi j hj

theorem together_putEdge {src dst : Nat} {incoming : List (String × Bytes)}
    {mode : EdgeInsertMode} {isOut : Bool} {edgeType : UInt8} {result : Status × GraphDb}
    (h : Together schema shards db)
    (hok : WritesTogether schema shards db src dst incoming mode isOut edgeType)
    (hs : putEdge schema src dst incoming mode isOut edgeType db = some result) :
    Together schema shards result.2 := by
  unfold putEdge at hs
  split at hs
  · cases hs
    exact h
  · cases hs
    exact h
  · rename_i touched _ htouched
    obtain ⟨db', hput, rfl⟩ := Option.map_eq_some_iff.mp hs
    exact together_putTouched h htouched hok hput

/-- A step that leaves the stores as they are. -/
theorem together_of_stores (h : Together schema shards db) (hstores : db'.stores = db.stores)
    (hseq : db.nextSequence ≤ db'.nextSequence) : Together schema shards db' := by
  refine ⟨?_, fun i hi => ?_, ?_⟩
  · rw [hstores]
    exact h.shown
  · rw [hstores]
    exact (h.sequence_le i hi).trans hseq
  · rw [hstores]
    exact h.same

theorem together_updateEdge {k : EdgeKey} {incoming : List (String × Bytes)}
    {result : Status × GraphDb} (h : Together schema shards db)
    (hok : TogetherStep schema shards db (.updateEdge k incoming))
    (hs : updateEdge schema k incoming db = some result) : Together schema shards result.2 := by
  unfold updateEdge at hs
  split at hs
  · rename_i hnone
    exact together_putEdge h (hok (by rw [hnone]; rfl)) hs
  · -- The manager changes nothing in the stores.
    split at hs
    · cases hs
      exact h
    · cases hs
      exact h
    · split at hs
      · cases hs
        exact h
      · cases hs
        exact together_of_stores h rfl (le_refl _)

theorem together_shard {i : Nat} {a : Store.Action} {s' : Store} (h : Together schema shards db)
    (ha : Background a = true) (hok : ShownStep (schema.options i) (db.stores i) a)
    (hs : Store.step (schema.options i) (db.stores i) a = some s') :
    Together schema shards { db with stores := fun j => if j = i then s' else db.stores j } := by
  obtain ⟨hhist, hseq⟩ := history_background ha hs
  have htop : ∀ j, (if j = i then s' else db.stores j).topology = (db.stores j).topology := by
    intro j
    split
    · rename_i hj
      unfold topology
      rw [hhist, hj]
    · rfl
  refine ⟨fun j hj => ?_, fun j hj => ?_, fun j hj l hl => ?_⟩
  · dsimp only
    split
    · rename_i hji
      rw [hji] at hj ⊢
      exact allShown_step (h.shown i hj) hok hs
    · exact h.shown j hj
  · dsimp only
    split
    · rename_i hji
      rw [hseq, ← hji]
      exact h.sequence_le j hj
    · exact h.sequence_le j hj
  · dsimp only
    rw [htop, htop]
    exact h.same j hj l hl

theorem together_step {a : Action} (h : Together schema shards db)
    (hok : TogetherStep schema shards db a) (hs : step schema db a = some db') :
    Together schema shards db' := by
  cases a with
  | putEdge src dst incoming mode isOut edgeType =>
    obtain ⟨result, hput, rfl⟩ := Option.map_eq_some_iff.mp hs
    exact together_putEdge h hok hput
  | updateEdge k incoming =>
    obtain ⟨result, hput, rfl⟩ := Option.map_eq_some_iff.mp hs
    exact together_updateEdge h hok hput
  | putNode =>
    cases hs
    exact together_of_stores h rfl (Nat.le_succ _)
  | shard i a =>
    simp only [step] at hs
    split at hs
    · rename_i hguard
      obtain ⟨s', hs', rfl⟩ := Option.map_eq_some_iff.mp hs
      exact together_shard h hguard.2 hok hs'
    · cases hs
  | retire u =>
    cases hs
    exact together_of_stores h rfl (le_refl _)
  | deltas d =>
    cases hs
    exact together_of_stores h rfl (le_refl _)

/-! ## The two reads -/

theorem together_of_reach {updatesEnabled : Bool}
    (h : Lib.Reach (step schema) (TogetherStep schema shards) (initial schema updatesEnabled) db) :
    Together schema shards db :=
  h.invariant (together_initial schema shards updatesEnabled) fun _ _ _ hinv hok hs =>
    together_step hinv hok hs

/-- Two shards with one property each. A memtable takes eight edges. -/
def twoShards : Schema :=
  { shardCount := 2
    options := fun _ => { smallStore with maxEdgeNum := 8, maxEdgeNum_pos := by decide }
    properties := fun i => if i = 0 then ["A"] else ["B"] }

end GraphDb

end RichGraph
