-- Opening a database from a schema that was loaded. Every column gets a width
-- and a route, and a name that stands in two places is refused, so a database
-- that opens has the schema that reads and writes rely on.
import RichGraph.PutGet
import RichGraph.SchemaFile

namespace RichGraph

namespace SchemaFile

/-! ## The settings of a shard -/

/-- `property_length_by_name`: of two definitions of a name the later one counts. -/
def Schema.propertyLengthByName (s : Schema) : List (Text × UInt32) :=
  s.propertyDefs.foldl (fun table d =>
    if d.name = [] then table else (d.name, max 1 d.length) :: table) []

/-- `resolve_property_length` -/
def Schema.resolvePropertyLength (s : Schema) (name : Text) : UInt32 :=
  (s.propertyLengthByName.lookup name).getD (max 1 s.maxPropertyLength)

/-- `resolve_memtable_size`: a shard without a size has the capacity of the options. -/
def resolveMemtableSize (defaultMemtableCapacity : Nat) (shardMemtableSize : UInt32) : Nat :=
  max 1 (if shardMemtableSize = 0 then UInt32.ofNat defaultMemtableCapacity
    else shardMemtableSize).toNat

theorem resolveMemtableSize_pos (capacity : Nat) (size : UInt32) :
    0 < resolveMemtableSize capacity size := Nat.le_max_left _ _

def Schema.columns (s : Schema) (i : Nat) : List Text :=
  (s.edgeShards[i]?.map ShardSchema.properties).getD []

/-- The schema as reads and writes have it. What the file does not say is in `base`. -/
def Schema.toSchema (s : Schema) (base : Nat → Options) (capacity : Nat) : RichGraph.Schema where
  shardCount := s.edgeShards.length
  options i := { base i with
    maxEdgeNum := resolveMemtableSize capacity
      ((s.edgeShards[i]?.map ShardSchema.memtableSize).getD 0)
    maxEdgeNum_pos := resolveMemtableSize_pos _ _
    propertyLengths := (s.columns i).map fun name => (s.resolvePropertyLength name).toNat }
  properties i := (s.columns i).map String.ofList

/-! ## The routes -/

abbrev Routes := List (Text × PropertyRoute)

/-- The loop over the columns of an edge shard. -/
def addRoutes (shardName : Text) (i : Nat) : Nat → List Text → Routes → Except Text Routes
  | _, [], routes => .ok routes
  | pid, name :: names, routes =>
    if name = [] then .error ("empty property name in edge shard ".toList ++ shardName)
    else if (routes.lookup name).isSome then
      .error ("duplicate edge property across shards: ".toList ++ name)
    else addRoutes shardName i (pid + 1) names ((name, ⟨i, pid⟩) :: routes)

/-- The loop over the edge shards. -/
def initShards : Nat → List ShardSchema → Routes → Except Text Routes
  | _, [], routes => .ok routes
  | i, shard :: shards, routes =>
    let name := if shard.name = [] then "edge_Db".toList ++ i.repr.toList else shard.name
    (addRoutes name i 0 shard.properties routes).bind (initShards (i + 1) shards)

/-- The loop over the columns of the node shard, where a later column takes over the name. -/
def initNode : Nat → List Text → Routes → Except Text Routes
  | _, [], routes => .ok routes
  | pid, name :: names, routes =>
    if name = [] then .error "empty property name in node shard".toList
    else initNode (pid + 1) names ((name, ⟨0, pid⟩) :: routes)

/-- `Init`: `edge_property_to_route_` and `node_property_to_route_`. -/
def init (s : Schema) : Except Text (Routes × Routes) :=
  (initShards 0 s.edgeShards []).bind fun edges =>
    (initNode 0 s.nodeDb.properties []).map fun node => (edges, node)

/-- The name of the column at a route. -/
def Schema.column (s : Schema) (r : PropertyRoute) : Option Text :=
  (s.columns r.shardIdx)[r.localPropertyId]?

/-- No name stands in two places. -/
def Schema.ColumnsOnce (s : Schema) : Prop :=
  ∀ r r' name, s.column r = some name → s.column r' = some name → r = r'

/-- A route that the loops have passed. -/
def Before (r : PropertyRoute) (i pid : Nat) : Prop :=
  r.shardIdx < i ∨ r.shardIdx = i ∧ r.localPropertyId < pid

/-- The table holds the columns that the loops have passed. -/
def Known (s : Schema) (i pid : Nat) (routes : Routes) : Prop :=
  ∀ name r, routes.lookup name = some r ↔ Before r i pid ∧ s.column r = some name

variable {s : Schema} {i pid : Nat} {routes : Routes}

theorem known_cons {name : Text} (h : Known s i pid routes)
    (hcolumn : s.column ⟨i, pid⟩ = some name) (hfree : routes.lookup name = none) :
    Known s i (pid + 1) ((name, ⟨i, pid⟩) :: routes) := by
  intro n r
  have hbefore : Before r i (pid + 1) ↔ Before r i pid ∨ r = ⟨i, pid⟩ := by
    obtain ⟨a, b⟩ := r
    simp only [Before, PropertyRoute.mk.injEq]
    omega
  rw [List.lookup_cons, hbefore]
  by_cases hn : n = name
  · subst hn
    rw [beq_self_eq_true n, Option.some.injEq]
    constructor
    · rintro rfl
      exact ⟨Or.inr rfl, hcolumn⟩
    · rintro ⟨hr | rfl, hname⟩
      · rw [(h n r).mpr ⟨hr, hname⟩] at hfree
        cases hfree
      · rfl
  · rw [beq_false_of_ne hn, h n r]
    constructor
    · exact fun hr => ⟨Or.inl hr.1, hr.2⟩
    · rintro ⟨hr | rfl, hname⟩
      · exact ⟨hr, hname⟩
      · rw [hcolumn] at hname
        exact absurd (Option.some.inj hname).symm hn

/-- The columns of a shard are in the table, or a name of them was there before. -/
theorem addRoutes_cases (shardName : Text) {names : List Text} (hnamed : ∀ name ∈ names, name ≠ [])
    (hcolumns : ∀ k, s.column ⟨i, pid + k⟩ = names[k]?) (h : Known s i pid routes) :
    (∃ routes', addRoutes shardName i pid names routes = .ok routes' ∧
      Known s i (pid + names.length) routes') ∨
    (∃ e, addRoutes shardName i pid names routes = .error e) ∧ ¬ s.ColumnsOnce := by
  induction names generalizing pid routes with
  | nil => exact Or.inl ⟨routes, rfl, h⟩
  | cons name names ih =>
    obtain ⟨hname, hnames⟩ := List.forall_mem_cons.mp hnamed
    have hcolumn : s.column ⟨i, pid⟩ = some name := hcolumns 0
    rw [addRoutes, if_neg hname]
    rcases hfind : routes.lookup name with _ | r
    · rw [if_neg (by simp), List.length_cons, ← Nat.add_assoc, Nat.add_right_comm]
      refine ih hnames (fun k => ?_) (known_cons h hcolumn hfind)
      rw [Nat.add_right_comm, Nat.add_assoc, hcolumns (k + 1), List.getElem?_cons_succ]
    · refine Or.inr ⟨⟨_, if_pos rfl⟩, fun honce => ?_⟩
      obtain ⟨hbefore, hr⟩ := (h name r).mp hfind
      cases honce r _ name hr hcolumn
      simp only [Before] at hbefore
      omega

theorem initShards_cases {shards : List ShardSchema} (hnamed : ∀ shard ∈ shards, shard.Named)
    (hshards : ∀ k, s.edgeShards[i + k]? = shards[k]?) (h : Known s i 0 routes) :
    (∃ routes', initShards i shards routes = .ok routes' ∧ Known s (i + shards.length) 0 routes') ∨
    (∃ e, initShards i shards routes = .error e) ∧ ¬ s.ColumnsOnce := by
  induction shards generalizing i routes with
  | nil => exact Or.inl ⟨routes, rfl, h⟩
  | cons shard shards ih =>
    obtain ⟨hshard, hrest⟩ := List.forall_mem_cons.mp hnamed
    have hcolumns : s.columns i = shard.properties := by
      rw [Schema.columns, show s.edgeShards[i]? = some shard from hshards 0]
      rfl
    have hcolumn : ∀ k, s.column ⟨i, 0 + k⟩ = shard.properties[k]? := fun k => by
      rw [Schema.column, hcolumns, Nat.zero_add]
    rw [initShards]
    rcases addRoutes_cases _ hshard hcolumn h with ⟨routes', hadd, hknown⟩ | ⟨⟨e, hadd⟩, hnot⟩
    · -- all columns of the shard have been passed
      have hnext : Known s (i + 1) 0 routes' := by
        intro name r
        rw [hknown name r]
        refine and_congr_left fun hr => ?_
        have hlt : r.shardIdx = i → r.localPropertyId < shard.properties.length := by
          intro hi
          rw [Schema.column, hi, hcolumns] at hr
          exact (List.getElem?_eq_some_iff.mp hr).1
        simp only [Before]
        omega
      rw [hadd, List.length_cons, ← Nat.add_assoc, Nat.add_right_comm]
      refine ih hrest (fun k => ?_) hnext
      rw [Nat.add_right_comm, Nat.add_assoc, hshards (k + 1), List.getElem?_cons_succ]
    · exact Or.inr ⟨⟨e, by rw [hadd]; rfl⟩, hnot⟩

theorem initNode_ok {names : List Text} (hnamed : ∀ name ∈ names, name ≠ []) (pid : Nat)
    (routes : Routes) : ∃ routes', initNode pid names routes = .ok routes' := by
  induction names generalizing pid routes with
  | nil => exact ⟨routes, rfl⟩
  | cons name names ih =>
    obtain ⟨hname, hnames⟩ := List.forall_mem_cons.mp hnamed
    rw [initNode, if_neg hname]
    exact ih hnames _ _

/-- A route that is found is a place of the name. -/
theorem column_of_route {base : Nat → Options} {capacity : Nat} {name : Text} {r : PropertyRoute}
    (h : (s.toSchema base capacity).route (String.ofList name) = some r) :
    s.column r = some name := by
  have hspec := GraphDb.route_spec h
  obtain ⟨n, hn, heq⟩ := Option.map_eq_some_iff.mp (List.getElem?_map.symm.trans hspec)
  rw [← String.ofList_inj.mp heq]
  exact hn

theorem shardIdx_lt {name : Text} {r : PropertyRoute} (h : s.column r = some name) :
    r.shardIdx < s.edgeShards.length := by
  by_contra hge
  have hnil : s.columns r.shardIdx = [] := by
    rw [Schema.columns, List.getElem?_eq_none (Nat.not_lt.mp hge)]
    rfl
  rw [Schema.column, hnil] at h
  cases h

theorem ne_nil_of_column (h : ∀ shard ∈ s.edgeShards, shard.Named) {name : Text} {r : PropertyRoute}
    (hr : s.column r = some name) : name ≠ [] := by
  have hmem := List.getElem_mem (shardIdx_lt hr)
  rw [Schema.column, Schema.columns, List.getElem?_eq_getElem (shardIdx_lt hr)] at hr
  exact h _ hmem name (List.mem_of_getElem? hr)

theorem route_of_once {base : Nat → Options} {capacity : Nat} (honce : s.ColumnsOnce) (name : Text)
    (r : PropertyRoute) : (s.toSchema base capacity).route (String.ofList name) = some r ↔
      s.column r = some name := by
  refine ⟨column_of_route, fun hr => ?_⟩
  have hmem : String.ofList name ∈ (s.toSchema base capacity).properties r.shardIdx :=
    List.mem_map_of_mem (List.mem_of_getElem? hr)
  have hsome : ((s.toSchema base capacity).route (String.ofList name)).isSome := by
    rw [Schema.route, List.findSome?_isSome_iff]
    exact ⟨r.shardIdx, List.mem_range.mpr (shardIdx_lt hr),
      by simpa [List.isSome_idxOf?] using hmem⟩
  obtain ⟨r', hroute⟩ := Option.isSome_iff_exists.mp hsome
  rw [hroute, honce r' r name (column_of_route hroute) hr]

/-- A schema that was loaded opens exactly when no name of a column stands twice. The table of
the routes then finds every column, and the schema is one that reads and writes rely on. -/
theorem opened_databases_route_every_column (path : Text) (file : Option Text)
    (h : loadSchemaFromYaml path file = .ok s) (base : Nat → Options) (capacity : Nat) :
    ((∃ routes, init s = .ok routes) ↔ s.ColumnsOnce) ∧
    ∀ edges node, init s = .ok (edges, node) → (s.toSchema base capacity).Wf ∧
      ∀ name, edges.lookup name = (s.toSchema base capacity).route (String.ofList name) := by
  obtain ⟨st, hsound, hfinish⟩ := exists_sound_of_load h
  have hwf := wellFormed_of_finish hsound hfinish
  have hstart : Known s 0 0 [] := fun name r => by simp [Before]
  obtain ⟨node, hnode⟩ := initNode_ok hwf.node 0 []
  rcases initShards_cases hwf.columns (fun k => by rw [Nat.zero_add]) hstart with
    ⟨edges, hedges, hknown⟩ | ⟨⟨e, herror⟩, hnot⟩
  · have hlookup : ∀ name r, edges.lookup name = some r ↔ s.column r = some name := by
      intro name r
      rw [hknown name r]
      refine and_iff_right_of_imp fun hr => Or.inl ?_
      rw [Nat.zero_add]
      exact shardIdx_lt hr
    have honce : s.ColumnsOnce := by
      intro r r' name hr hr'
      rw [← hlookup] at hr hr'
      exact Option.some.inj (hr.symm.trans hr')
    have hinit : init s = .ok (edges, node) := by
      rw [init, hedges]
      show (initNode 0 s.nodeDb.properties []).map _ = _
      rw [hnode]
      rfl
    refine ⟨⟨fun _ => honce, fun _ => ⟨_, hinit⟩⟩, fun edges' node' hopen => ?_⟩
    rw [hinit] at hopen
    cases hopen
    refine ⟨⟨fun i _ => by simp [Schema.toSchema], fun i hi j hj name hname => ?_⟩, fun name => ?_⟩
    · obtain ⟨n, hn, rfl⟩ := Option.map_eq_some_iff.mp (List.getElem?_map.symm.trans hname)
      refine ⟨fun hempty => ?_, (route_of_once honce n ⟨i, j⟩).mpr hn⟩
      exact ne_nil_of_column hwf.columns (r := ⟨i, j⟩) hn (String.ofList_inj.mp hempty)
    · refine Option.ext fun r => ?_
      rw [hlookup, route_of_once honce]
  · have hclosed : ∀ routes, init s ≠ .ok routes := by
      intro routes hopen
      rw [init, herror] at hopen
      cases hopen
    exact ⟨⟨fun hex => hex.elim fun routes hopen => absurd hopen (hclosed routes),
      fun honce => absurd honce hnot⟩, fun edges node hopen => absurd hopen (hclosed _)⟩

/-- `smallFile` opens, and the second column of its shard is found. -/
theorem small_file_opens : ∃ edges node, init smallSchema = .ok (edges, node) ∧
    (smallSchema.toSchema GraphDb.twoColumns.options 4).Wf ∧
    edges.lookup "note".toList = some ⟨0, 1⟩ := by
  have hload : loadSchemaFromYaml [] (some smallFile) = .ok smallSchema := by decide +kernel
  have hopen := opened_databases_route_every_column [] _ hload GraphDb.twoColumns.options 4
  exact ⟨_, _, rfl, (hopen.2 _ _ rfl).1, by decide⟩

end SchemaFile

end RichGraph
