-- The database over its edge shards. A put writes one record, with one
-- sequence, to every shard of which it names a property; a read of several
-- properties puts the answers of the shards together again.
import RichGraph.Scans
import RichGraph.PropertyUpdateManager
import RichGraph.Lib.Join

namespace RichGraph

open Store PropertyUpdateManager

/-! ## The schema and the routes -/

/-- The edge shards: settings of the store and names of the columns. -/
structure Schema where
  shardCount : Nat
  options : Nat → Options
  properties : Nat → List String

structure PropertyRoute where
  shardIdx : Nat
  localPropertyId : Nat
deriving DecidableEq

/-- `edge_property_to_route_`. `Init` refuses a name that is in two places. -/
def Schema.route (schema : Schema) (name : String) : Option PropertyRoute :=
  (List.range schema.shardCount).findSome? fun i =>
    ((schema.properties i).idxOf? name).map (PropertyRoute.mk i)

/-- The loop of `ResolveEdgePropertyRoutes`: empty and repeated names are passed over. -/
def Schema.resolve (schema : Schema) :
    List String → List String → Option (List (String × PropertyRoute))
  | _, [] => some []
  | seen, name :: names =>
    if name = "" ∨ name ∈ seen then schema.resolve seen names
    else match schema.route name with
      | none => none
      | some r => (schema.resolve (name :: seen) names).map ((name, r) :: ·)

/-- `ResolveEdgePropertyRoutes`. There has to be a route. -/
def Schema.resolveEdgePropertyRoutes (schema : Schema) (names : List String) :
    Option (List (String × PropertyRoute)) :=
  (schema.resolve [] names).bind fun routes => if routes = [] then none else some routes

/-- `BuildShardPropertyString`: the columns of a shard, a column without a value is empty. -/
def buildShardPropertyString (order : List String) (incoming : List (String × Bytes)) : Bytes :=
  [bar].intercalate (order.map fun name => (incoming.lookup name).getD [])

/-- The shards of which a property is named, or none when a name is not known. -/
def Schema.touchedShards (schema : Schema) (incoming : List (String × Bytes)) :
    Option (List Nat) :=
  (incoming.mapM fun p => schema.route p.1).map fun routes => routes.map PropertyRoute.shardIdx

/-! ## The state -/

/-- `pending` is there when property updates are enabled. `deltas` is what the delta files of a
shard give; it is changed by hand-offs and by drains, which are not modelled here. -/
structure GraphDb where
  stores : Nat → Store
  nextSequence : Nat
  pending : Option Pending
  nextCommit : Nat
  deltas : Nat → DeltaLookup

namespace GraphDb

def initial (schema : Schema) (updatesEnabled : Bool) : GraphDb :=
  { stores := fun i => Store.initial (schema.options i)
    nextSequence := 0
    pending := if updatesEnabled then some fun _ => none else none
    nextCommit := 1
    deltas := fun _ => noDeltas }

/-! ## Writes -/

/-- The record of a put in one shard. -/
def shardPut (schema : Schema) (src dst : Nat) (incoming : List (String × Bytes))
    (mode : EdgeInsertMode) (isOut : Bool) (edgeType : UInt8) (i : Nat) : Store.Action :=
  .putEdge src dst (buildShardPropertyString (schema.properties i) incoming) mode isOut edgeType

/-- The put in the shards that it touches, with the next sequence. -/
def putTouched (schema : Schema) (touched : List Nat) (put : Nat → Store.Action) (db : GraphDb) :
    Option GraphDb :=
  let next := fun i =>
    Store.step (schema.options i) { db.stores i with nextSequence := db.nextSequence } (put i)
  if touched.all fun i => (next i).isSome then
    some { db with
      stores := fun i => if touched.contains i then (next i).getD (db.stores i) else db.stores i
      nextSequence := db.nextSequence + 1 }
  else none

/-- `GraphDb::PutEdge`. A call that is refused changes nothing. -/
def putEdge (schema : Schema) (src dst : Nat) (incoming : List (String × Bytes))
    (mode : EdgeInsertMode) (isOut : Bool) (edgeType : UInt8) (db : GraphDb) :
    Option (Status × GraphDb) :=
  match schema.touchedShards incoming with
  | none => some (.kInvalidArgument, db)
  | some [] => some (.kInvalidArgument, db)
  | some touched =>
    (putTouched schema touched (shardPut schema src dst incoming mode isOut edgeType) db).map
      (Prod.mk .kOk)

/-- `LSMStore::LocateEdge`, with its status. -/
def locate (db : GraphDb) (k : EdgeKey) (i : Nat) : Except Status Location :=
  match (db.stores i).locateEdge k with
  | (.kOk, loc) => .ok loc
  | (status, _) => .error status

/-- The update of one property that `UpdateEdge` hands to the manager. -/
def updateOf (k : EdgeKey) (value : Bytes) (r : PropertyRoute) (loc : Location) :
    BufferedPropertyUpdate :=
  { target := ⟨.kEdge, r.shardIdx, loc.targetId, loc.targetId, r.localPropertyId⟩
    targetIsPersistent := !loc.inMemtable
    record := ⟨k.src, k.dst, loc.sequence, 0, k.isOut, k.edgeType, value⟩ }

/-- The updates of a call, located in their shards. -/
def locateUpdates (schema : Schema) (db : GraphDb) (k : EdgeKey)
    (incoming : List (String × Bytes)) :
    Except Status (List BufferedPropertyUpdate) :=
  incoming.mapM fun p =>
    match schema.route p.1 with
    | none => .error .kInvalidArgument
    | some r => (db.locate k r.shardIdx).map (updateOf k p.2 r)

/-- `GraphDb::UpdateEdge`. Without the manager it is a put; with it the updates of the located
records are stamped and published. -/
def updateEdge (schema : Schema) (k : EdgeKey) (incoming : List (String × Bytes)) (db : GraphDb) :
    Option (Status × GraphDb) :=
  match db.pending with
  | none => putEdge schema k.src k.dst incoming .kSingle k.isOut k.edgeType db
  | some pending =>
    match schema.touchedShards incoming with
    | none => some (.kInvalidArgument, db)
    | some [] => some (.kInvalidArgument, db)
    | some _ =>
      match locateUpdates schema db k incoming with
      | .error status => some (status, db)
      | .ok updates =>
        some (.kOk, { db with
          pending := some ((updates.map (stamp db.nextCommit)).foldl publishPending pending)
          nextCommit := db.nextCommit + 1 })

/-! ## Reads -/

/-- The key of a buffered update of an edge. -/
def pendingKey (k : EdgeKey) (r : PropertyRoute) : PendingKey :=
  ⟨.kEdge, r.shardIdx, r.localPropertyId, k.src, k.dst, k.isOut, k.edgeType⟩

/-- `LookupLatest` -/
def lookupLatest (db : GraphDb) (k : EdgeKey) (r : PropertyRoute) : Option PendingValue :=
  db.pending.bind fun pending => pending (pendingKey k r)

/-- `LookupExact`: the buffered value, when it is for the record of the sequence. -/
def lookupExact (db : GraphDb) (k : EdgeKey) (r : PropertyRoute) (baseSequence : Nat) :
    Option Bytes :=
  (db.lookupLatest k r).bind fun v => if v.baseSequence = baseSequence then some v.value else none

/-- `LSMStore::GetEdge` on the shard of a route. -/
def storedProperty (db : GraphDb) (k : EdgeKey) (r : PropertyRoute) : Except Status Bytes :=
  (db.stores r.shardIdx).getEdge (db.deltas r.shardIdx) k r.localPropertyId

/-- One turn of the loop of `GetEdge`: a buffered value of the located record goes first. -/
def getProperty (db : GraphDb) (k : EdgeKey) (r : PropertyRoute) : Except Status Bytes :=
  match db.lookupLatest k r with
  | none => db.storedProperty k r
  | some _ =>
    match db.locate k r.shardIdx with
    | .error _ => db.storedProperty k r
    | .ok loc =>
      match db.lookupExact k r loc.sequence with
      | none => db.storedProperty k r
      | some value => .ok value

/-- `GraphDb::GetEdge` -/
def getEdge (schema : Schema) (db : GraphDb) (k : EdgeKey) (names : List String) :
    Except Status (List (String × Bytes)) :=
  match schema.resolveEdgePropertyRoutes names with
  | none => .error .kInvalidArgument
  | some routes => routes.mapM fun p => (db.getProperty k p.2).map (Prod.mk p.1)

/-- `CaptureBufferedProperties` -/
def captureBufferedProperties (db : GraphDb) (src : Nat) (isOut : Bool) (edgeType : UInt8)
    (r : PropertyRoute) : BufferedPropertySnapshot := fun key =>
  db.lookupExact ⟨src, key.dst, isOut, edgeType⟩ r key.seq

/-- The records that a scan reads for one route. -/
def routeRecords (db : GraphDb) (src : Nat) (isOut : Bool) (edgeType : UInt8) (r : PropertyRoute) :
    List SinglePropertyRecord :=
  scannedRecords (db.stores r.shardIdx) (db.deltas r.shardIdx)
    (db.captureBufferedProperties src isOut edgeType r) src r.localPropertyId isOut edgeType

/-- The candidates of a scan of several properties, by version. The names in `hit_properties` are
those that have a value. -/
def candidates (recordsOf : PropertyRoute → List SinglePropertyRecord)
    (routes : List (String × PropertyRoute)) : Lib.Rows EdgeVersionKey String Bytes :=
  Lib.Rows.join (routes.map fun p => (p.1, (recordsOf p.2).map fun r => (r.key, r.value)))

instance : Std.Total EdgeVersionKey.le := ⟨fun a b => by unfold EdgeVersionKey.le; omega⟩

instance : IsTrans EdgeVersionKey EdgeVersionKey.le :=
  ⟨fun a b c => by unfold EdgeVersionKey.le; omega⟩

/-- `ScanEdges` when several properties are asked for: the versions that every route has. -/
def scanEdgesJoined (recordsOf : PropertyRoute → List SinglePropertyRecord)
    (routes : List (String × PropertyRoute)) : List GraphDbEdgeScanRecord :=
  let merged := candidates recordsOf routes
  ((merged.full routes.length).insertionSort EdgeVersionKey.le).map fun key =>
    ⟨key.dst, key.seq, ((merged.lookup key).getD ∅).entries.map fun e => (e.1, e.2)⟩

def scanRoutes (recordsOf : PropertyRoute → List SinglePropertyRecord) :
    List (String × PropertyRoute) → List GraphDbEdgeScanRecord
  | [p] => (lastOfVersions (recordsOf p.2)).map (SinglePropertyRecord.toScanRecord p.1)
  | routes => scanEdgesJoined recordsOf routes

/-- `GraphDb::ScanEdges`, given what the iterators of the shards yield for each route. -/
def scanEdgesOver (recordsOf : PropertyRoute → List SinglePropertyRecord) (schema : Schema)
    (names : List String) : Except Status (List GraphDbEdgeScanRecord) :=
  match schema.resolveEdgePropertyRoutes names with
  | none => .error .kInvalidArgument
  | some routes => .ok (scanRoutes recordsOf routes)

/-- `GraphDb::ScanEdges` over shards that are not in CSR mode. -/
def scanEdges (schema : Schema) (db : GraphDb) (src : Nat) (names : List String) (isOut : Bool)
    (edgeType : UInt8) : Except Status (List GraphDbEdgeScanRecord) :=
  scanEdgesOver (db.routeRecords src isOut edgeType) schema names

/-! ## Steps -/

/-- A step of a store that is not a put. -/
def Background : Store.Action → Bool
  | .putEdge .. => false
  | _ => true

/-- `putNode` stands for the writes of nodes, which take sequences too. `retire` and `deltas` are
the hand-off of a buffered update and every change of the delta files. -/
inductive Action where
  | putEdge (src dst : Nat) (incoming : List (String × Bytes)) (mode : EdgeInsertMode)
      (isOut : Bool) (edgeType : UInt8)
  | updateEdge (k : EdgeKey) (incoming : List (String × Bytes))
  | putNode
  | shard (i : Nat) (a : Store.Action)
  | retire (u : BufferedPropertyUpdate)
  | deltas (d : Nat → DeltaLookup)

def step (schema : Schema) (db : GraphDb) : Action → Option GraphDb
  | .putEdge src dst incoming mode isOut edgeType =>
    (putEdge schema src dst incoming mode isOut edgeType db).map Prod.snd
  | .updateEdge k incoming => (updateEdge schema k incoming db).map Prod.snd
  | .putNode => some { db with nextSequence := db.nextSequence + 1 }
  | .shard i a =>
    if i < schema.shardCount ∧ Background a then
      (Store.step (schema.options i) (db.stores i) a).map fun s =>
        { db with stores := fun j => if j = i then s else db.stores j }
    else none
  | .retire u => some { db with pending := db.pending.map fun p => retirePending p u }
  | .deltas d => some { db with deltas := d }

end GraphDb

end RichGraph
