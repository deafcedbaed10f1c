-- The schema file, read line by line. Comments and blank lines are passed
-- over, the first line that is refused ends the load, and what is loaded
-- has what the database needs of a schema.
import Mathlib.Data.List.DropRight
import Mathlib.Tactic.Ring

namespace RichGraph

namespace SchemaFile

/-- The parser looks for ASCII characters only, so characters stand for the bytes of the file. -/
abbrev Text := List Char

/-! ## Values -/

/-- `std::isspace` -/
def isspace (c : Char) : Bool := c = ' ' || (9 ≤ c.toNat && c.toNat ≤ 13)

/-- `Trim` -/
def trim (s : Text) : Text := (s.dropWhile isspace).rdropWhile isspace

/-- `std::getline` until nothing is left: after the last separator there is no empty piece. -/
def getlines (sep : Char) : Text → List Text
  | [] => []
  | c :: cs =>
    if c = sep then [] :: getlines sep cs
    else match getlines sep cs with
      | [] => [[c]]
      | piece :: pieces => (c :: piece) :: pieces

/-- `StripComment` -/
def stripComment (line : Text) : Text := line.takeWhile (· ≠ '#')

/-- `StartsWith` with `-` -/
def startsItem (s : Text) : Bool := s.head? = some '-'

def quoted (quote : Char) (s : Text) : Prop := s.head? = some quote ∧ s.getLast? = some quote

instance (quote : Char) (s : Text) : Decidable (quoted quote s) :=
  inferInstanceAs (Decidable (_ ∧ _))

/-- `Unquote`, with the two quotation marks of ASCII. -/
def unquote (s : Text) : Text :=
  if 2 ≤ s.length ∧ (quoted (Char.ofNat 34) s ∨ quoted (Char.ofNat 39) s) then s.tail.dropLast
  else s

/-- `ParseBool` -/
def parseBool (raw : Text) : Option Bool :=
  let s := trim raw
  if s ∈ ["1".toList, "true".toList, "True".toList, "TRUE".toList] then some true
  else if s ∈ ["0".toList, "false".toList, "False".toList, "FALSE".toList] then some false
  else none

/-- What `strtoull` and `strtol` read in base ten: whether there is a minus sign, and the number
before the first character that is no digit. What comes after is not looked at. -/
def readNumber (s : Text) : Option (Bool × Nat) :=
  let s := s.dropWhile isspace
  let unsigned := if s.head? = some '-' ∨ s.head? = some '+' then s.tail else s
  let digits := unsigned.takeWhile Char.isDigit
  if digits = [] then none else some (s.head? = some '-', Nat.ofDigitChars 10 digits 0)

/-- `std::stoull`. A number with a minus sign wraps around. -/
def stoull (s : Text) : Option UInt64 :=
  (readNumber s).bind fun (negative, n) =>
    if n < 2 ^ 64 then some (if negative then -UInt64.ofNat n else UInt64.ofNat n) else none

/-- `std::stoi` -/
def stoi (s : Text) : Option Int :=
  (readNumber s).bind fun (negative, n) =>
    if negative then if n ≤ 2 ^ 31 then some (-n) else none
    else if n < 2 ^ 31 then some n else none

/-- `ParseUint64` -/
def parseUint64 (raw : Text) : Option UInt64 :=
  let s := trim raw
  if s = [] then none else stoull s

/-- `ParseUint32` -/
def parseUint32 (raw : Text) : Option UInt32 :=
  (parseUint64 raw).bind fun n => if n.toNat < 2 ^ 32 then some n.toUInt32 else none

/-- `ParseInt` -/
def parseInt (raw : Text) : Option Int :=
  let s := trim raw
  if s = [] then none else stoi s

/-- `ParseInlineList`, with or without brackets. When every element is empty, the text itself
is the one element. -/
def parseInlineList (raw : Text) : List Text :=
  let s := trim raw
  let s := if s.head? = some '[' ∧ s.getLast? = some ']' then trim s.tail.dropLast else s
  let out := ((getlines ',' s).map fun token => unquote (trim token)).filter (· ≠ [])
  if out = [] then [unquote (trim s)].filter (· ≠ []) else out

/-- `ParseKeyValue` -/
def parseKeyValue (line : Text) : Option (Text × Text) :=
  if ':' ∈ line then
    some (trim (line.takeWhile (· ≠ ':')), trim (line.dropWhile (· ≠ ':')).tail)
  else none

/-! ## The schema -/

structure PropertyDef where
  name : Text := []
  length : UInt32 := 10
deriving DecidableEq

/-- `EdgeShardSchema`, and `NodeShardSchema` with another name to start with. -/
structure ShardSchema where
  name : Text := []
  properties : List Text := []
  memtableSize : UInt32 := 0
  isCsr : Bool := false
  csrL0MaxSstNum : UInt32 := 8
  csrL1MaxSstNum : UInt32 := 10000
deriving DecidableEq

structure Schema where
  maxVertexNum : UInt64 := 0
  useCsrDisk : Bool := false
  subPropertyNum : UInt32 := 0
  maxPropertyLength : UInt32 := 10
  systemThreads : Int := 1
  propertyDefs : List PropertyDef := []
  edgeShards : List ShardSchema := []
  nodeDb : ShardSchema := { name := "node_Db".toList }
deriving DecidableEq

/-! ## The load -/

/-- A message about a line: what comes before and after the number of the line. -/
structure LineError where
  what : String
  tail : Text := []

def LineError.message (e : LineError) (line : Nat) : Text :=
  e.what.toList ++ line.repr.toList ++ e.tail

inductive Section where
  | kRoot
  | kEdgeShards
  | kNodeDb
  | kPropertyDefs

/-- An item is there while it is open. -/
structure LoadState where
  schema : Schema := {}
  inSection : Section := .kRoot
  edgeShard : Option ShardSchema := none
  propDef : Option PropertyDef := none
  hasMaxVertexNum : Bool := false

/-- `flush_edge_shard` -/
def LoadState.flushEdgeShard (st : LoadState) : LoadState :=
  match st.edgeShard with
  | none => st
  | some shard =>
    let shard := if shard.name = [] then
      { shard with name := "edge_Db".toList ++ st.schema.edgeShards.length.repr.toList } else shard
    { st with
      schema := { st.schema with edgeShards := st.schema.edgeShards ++ [shard] }
      edgeShard := none }

/-- `flush_prop_def` -/
def LoadState.flushPropDef (st : LoadState) : LoadState :=
  match st.propDef with
  | none => st
  | some d =>
    { st with
      schema := { st.schema with
        propertyDefs := st.schema.propertyDefs ++ [d].filter (·.name ≠ []) }
      propDef := none }

/-- A value that does not parse. -/
def invalid {α : Type} (what : String) (value : Option α) : Except LineError α :=
  match value with
  | none => .error ⟨"invalid " ++ what ++ " at line ", []⟩
  | some a => .ok a

def unknownKey {α : Type} (what : String) (key : Text) : Except LineError α :=
  .error ⟨"unknown " ++ what ++ " key at line ", ": ".toList ++ key⟩

/-- The keys that are read in every section. -/
def rootField (st : LoadState) (key value : Text) : Option (Except LineError LoadState) :=
  if key = "max_vertex_num".toList then
    some ((invalid "max_vertex_num" (parseUint64 value)).map fun n =>
      { st with schema := { st.schema with maxVertexNum := n }, hasMaxVertexNum := true })
  else if key = "use_csr_disk".toList then
    some ((invalid "use_csr_disk" (parseBool value)).map fun b =>
      { st with schema := { st.schema with useCsrDisk := b } })
  else if key = "sub_property_num".toList then
    some ((invalid "sub_property_num" (parseUint32 value)).map fun n =>
      { st with schema := { st.schema with subPropertyNum := n } })
  else if key = "max_property_length".toList then
    some ((invalid "max_property_length" (parseUint32 value)).map fun n =>
      { st with schema := { st.schema with maxPropertyLength := n } })
  else if key = "system_threads".toList then
    some ((invalid "system_threads" ((parseInt value).filter (0 < ·))).map fun n =>
      { st with schema := { st.schema with systemThreads := n } })
  else none

/-- The keys of an edge shard and of the node shard. -/
def shardField (what : String) (shard : ShardSchema) (key value : Text) :
    Except LineError ShardSchema :=
  if key = "name".toList then .ok { shard with name := unquote value }
  else if key = "properties".toList then .ok { shard with properties := parseInlineList value }
  else if key = "memtable_size".toList then
    (invalid (what ++ " memtable_size") (parseUint32 value)).map fun n =>
      { shard with memtableSize := n }
  else if key = "is_csr".toList then
    (invalid (what ++ " is_csr") (parseBool value)).map fun b => { shard with isCsr := b }
  else if key = "csr_l0_max_sst_num".toList then
    (invalid (what ++ " csr_l0_max_sst_num") (parseUint32 value)).map fun n =>
      { shard with csrL0MaxSstNum := n }
  else if key = "csr_l1_max_sst_num".toList then
    (invalid (what ++ " csr_l1_max_sst_num") (parseUint32 value)).map fun n =>
      { shard with csrL1MaxSstNum := n }
  else unknownKey what key

/-- The keys of a property definition. -/
def propField (d : PropertyDef) (key value : Text) : Except LineError PropertyDef :=
  if key = "name".toList then .ok { d with name := unquote value }
  else if key = "length".toList then
    (invalid "property length" (parseUint32 value)).map fun n => { d with length := n }
  else unknownKey "property_defs" key

/-- A line of a section with items: `-` starts an item, other lines go on with the open one. -/
def itemLine {α : Type} (what : String) (field : α → Text → Text → Except LineError α)
    (fresh : α) (curr : Option α) (line : Text) : Except LineError α :=
  if startsItem line then
    let remain := trim line.tail
    if remain = [] then .ok fresh
    else match parseKeyValue remain with
      | none => .error ⟨"invalid " ++ what ++ " item at line ", []⟩
      | some (key, value) => field fresh key value
  else match parseKeyValue line with
    | none => .error ⟨"invalid " ++ what ++ " line ", []⟩
    | some (key, value) => field (curr.getD fresh) key value

def edgeShardLine (st : LoadState) (line : Text) : Except LineError LoadState :=
  (itemLine "edge_shards" (shardField "edge_shard") {} st.edgeShard line).map fun shard =>
    { (if startsItem line then st.flushEdgeShard else st) with edgeShard := some shard }

def propDefLine (st : LoadState) (line : Text) : Except LineError LoadState :=
  (itemLine "property_defs" propField {} st.propDef line).map fun d =>
    { (if startsItem line then st.flushPropDef else st) with propDef := some d }

def nodeDbLine (st : LoadState) (line : Text) : Except LineError LoadState :=
  match parseKeyValue line with
  | none => .error ⟨"invalid node_db line ", []⟩
  | some (key, value) => (shardField "node_db" st.schema.nodeDb key value).map fun shard =>
    { st with schema := { st.schema with nodeDb := shard } }

/-- A line that stands in a section. -/
def sectionLine (st : LoadState) (line : Text) : Except LineError LoadState :=
  match st.inSection with
  | .kEdgeShards => edgeShardLine st line
  | .kNodeDb => nodeDbLine st line
  | .kPropertyDefs => propDefLine st line
  | .kRoot => .error ⟨"unknown or misplaced line ", ": ".toList ++ line⟩

/-- One line without its comment and the blanks around it. -/
def loadLine (st : LoadState) (line : Text) : Except LineError LoadState :=
  if line = [] then .ok st
  else if line = "edge_shards:".toList then
    .ok { st.flushPropDef.flushEdgeShard with inSection := .kEdgeShards }
  else if line = "node_db:".toList then
    .ok { st.flushPropDef.flushEdgeShard with inSection := .kNodeDb }
  else if line = "property_defs:".toList then
    .ok { st.flushEdgeShard.flushPropDef with inSection := .kPropertyDefs }
  else match (parseKeyValue line).bind fun (key, value) => rootField st key value with
    | some loaded => loaded
    | none => sectionLine st line

/-- The loop over the lines of the file. The first line that is refused is named. -/
def loadLines (st : LoadState) (lineNo : Nat) : List Text → Except Text LoadState
  | [] => .ok st
  | raw :: rest =>
    match loadLine st (trim (stripComment raw)) with
    | .error e => .error (e.message (lineNo + 1))
    | .ok st' => loadLines st' (lineNo + 1) rest

/-- The largest number of columns, and one when there are none. -/
def Schema.maxCols (s : Schema) : Nat :=
  let cols := s.edgeShards.foldl (fun n shard => max n shard.properties.length)
    s.nodeDb.properties.length
  if cols = 0 then 1 else cols

/-- What comes after the loop. -/
def finish (st : LoadState) : Except Text Schema :=
  let s := st.flushEdgeShard.flushPropDef.schema
  if st.hasMaxVertexNum = false ∨ s.maxVertexNum = 0 then
    .error "max_vertex_num is required and must be > 0".toList
  else if s.edgeShards = [] then .error "edge_shards must not be empty".toList
  else
    .ok { s with
      nodeDb := if s.nodeDb.name = [] then { s.nodeDb with name := "node_Db".toList } else s.nodeDb
      systemThreads := if s.systemThreads ≤ 0 then 1 else s.systemThreads
      subPropertyNum :=
        if s.subPropertyNum = 0 then UInt32.ofNat s.maxCols else s.subPropertyNum }

inductive LoadFailure where
  | kIOError (message : Text)
  | kInvalidArgument (message : Text)
deriving DecidableEq

/-- `LoadSchemaFromYaml`, with the contents of the file if it can be opened. -/
def loadSchemaFromYaml (path : Text) (file : Option Text) : Except LoadFailure Schema :=
  match file with
  | none => .error (.kIOError ("open schema file failed: ".toList ++ path))
  | some text =>
    match (loadLines {} 0 (getlines '\n' text)).bind finish with
    | .error message => .error (.kInvalidArgument message)
    | .ok s => .ok s

/-! ## Comments and blank lines -/

/-- The lines that are left without comments, blanks at the ends and empty lines. -/
def significant (lines : List Text) : List Text :=
  (lines.map fun raw => trim (stripComment raw)).filter (· ≠ [])

/-- The loop without numbers of lines. -/
def run (st : LoadState) (lines : List Text) : Except LineError LoadState :=
  lines.foldlM loadLine st

theorem run_cons (st : LoadState) (line : Text) (lines : List Text) :
    run st (line :: lines) = (loadLine st line).bind fun st' => run st' lines := List.foldlM_cons

theorem toOption_loadLines (st : LoadState) (lineNo : Nat) (lines : List Text) :
    (loadLines st lineNo lines).toOption = (run st (significant lines)).toOption := by
  induction lines generalizing st lineNo with
  | nil => rfl
  | cons raw rest ih =>
    rw [loadLines, significant, List.map_cons, List.filter_cons]
    by_cases hblank : trim (stripComment raw) = []
    · rw [if_neg (by simp [hblank]), hblank]
      exact ih st (lineNo + 1)
    · rw [if_pos (by simp [hblank]), run_cons]
      rcases loadLine st (trim (stripComment raw)) with e | st'
      · rfl
      · exact ih st' (lineNo + 1)

theorem toOption_loadSchemaFromYaml (path text : Text) :
    (loadSchemaFromYaml path (some text)).toOption =
      (run {} (significant (getlines '\n' text))).toOption.bind fun st => (finish st).toOption := by
  rw [← toOption_loadLines {} 0, loadSchemaFromYaml]
  rcases loadLines {} 0 (getlines '\n' text) with e | st
  · rfl
  · rcases hfinish : finish st with e | s <;>
      simp [Except.bind, Except.toOption, hfinish]

/-- Two files with the same lines, whatever comments, indentation and blank lines they have, load
the same schema, or are both refused. -/
theorem layout_does_not_matter (path₁ path₂ : Text) {text₁ text₂ : Text}
    (h : significant (getlines '\n' text₁) = significant (getlines '\n' text₂)) :
    (loadSchemaFromYaml path₁ (some text₁)).toOption =
      (loadSchemaFromYaml path₂ (some text₂)).toOption := by
  rw [toOption_loadSchemaFromYaml, toOption_loadSchemaFromYaml, h]

def smallFile : Text :=
  "# two columns\n\nmax_vertex_num: 8\nedge_shards:\n  - properties: [since, note]\n".toList

/-- The lines of `smallFile` in another layout. -/
def otherLayout : Text :=
  "max_vertex_num: 8 # vertices\nedge_shards: # one\n- properties: [since, note]".toList

theorem two_layouts_of_a_small_file :
    significant (getlines '\n' smallFile) = significant (getlines '\n' otherLayout) ∧
    (loadSchemaFromYaml [] (some smallFile)).toOption =
      (loadSchemaFromYaml [] (some otherLayout)).toOption :=
  ⟨by decide +kernel, layout_does_not_matter [] [] (by decide +kernel)⟩

/-! ## What is loaded -/

/-- No column is without a name. -/
def ShardSchema.Named (shard : ShardSchema) : Prop := ∀ name ∈ shard.properties, name ≠ []

/-- What every line keeps. -/
structure Schema.Kept (s : Schema) : Prop where
  threads : 0 < s.systemThreads ∧ s.systemThreads < 2 ^ 31
  shardNames : ∀ shard ∈ s.edgeShards, shard.name ≠ []
  columns : ∀ shard ∈ s.edgeShards, shard.Named
  node : s.nodeDb.Named
  defs : ∀ d ∈ s.propertyDefs, d.name ≠ []

structure Schema.WellFormed (s : Schema) : Prop extends s.Kept where
  vertices : s.maxVertexNum ≠ 0
  shards : s.edgeShards ≠ []
  nodeName : s.nodeDb.name ≠ []

structure LoadState.Sound (st : LoadState) : Prop extends st.schema.Kept where
  openShard : ∀ shard ∈ st.edgeShard, shard.Named

theorem parseInlineList_ne_nil (raw : Text) : ∀ name ∈ parseInlineList raw, name ≠ [] := by
  intro name hname
  unfold parseInlineList at hname
  dsimp only at hname
  split at hname <;> split at hname <;> simpa using (List.mem_filter.mp hname).2

theorem parseInt_lt {raw : Text} {n : Int} (h : parseInt raw = some n) : n < 2 ^ 31 := by
  unfold parseInt stoi at h
  dsimp only at h
  split at h
  · cases h
  · obtain ⟨⟨negative, k⟩, -, h⟩ := Option.bind_eq_some_iff.mp h
    dsimp only at h
    split at h <;> split at h <;> cases h <;> omega

theorem map_eq_ok {α β : Type} {x : Except LineError α} {f : α → β} {b : β}
    (h : x.map f = .ok b) : ∃ a, x = .ok a ∧ f a = b := by
  rcases x with e | a
  · cases h
  · exact ⟨a, rfl, Except.ok.inj h⟩

theorem invalid_eq_ok {α : Type} {what : String} {value : Option α} {a : α}
    (h : invalid what value = .ok a) : value = some a := by
  rcases value with _ | a'
  · cases h
  · exact congrArg some (Except.ok.inj h)

/-- A field of a shard changes the columns only by a list of names. -/
theorem named_shardField {what : String} {shard shard' : ShardSchema} {key value : Text}
    (hs : shard.Named) (h : shardField what shard key value = .ok shard') : shard'.Named := by
  unfold shardField at h
  split_ifs at h
  · cases h
    exact hs
  · cases h
    exact parseInlineList_ne_nil value
  all_goals first
    | (obtain ⟨_, _, rfl⟩ := map_eq_ok h; exact hs)
    | cases h

theorem named_itemLine {what : String} {curr : Option ShardSchema} {line : Text}
    {shard : ShardSchema} (hcurr : ∀ s ∈ curr, s.Named)
    (h : itemLine what (shardField "edge_shard") {} curr line = .ok shard) : shard.Named := by
  have hfresh : ({} : ShardSchema).Named := fun name hname => by cases hname
  unfold itemLine at h
  dsimp only at h
  split at h
  · split at h
    · cases h
      exact hfresh
    · split at h
      · cases h
      · exact named_shardField hfresh h
  · split at h
    · cases h
    · refine named_shardField ?_ h
      rcases curr with _ | s
      · exact hfresh
      · exact hcurr s rfl

variable {st st' : LoadState}

theorem sound_flushEdgeShard (h : st.Sound) : st.flushEdgeShard.Sound := by
  unfold LoadState.flushEdgeShard
  rcases hopen : st.edgeShard with _ | shard
  · exact h
  · have hnamed := h.openShard shard hopen
    refine ⟨⟨h.threads, ?_, ?_, h.node, h.defs⟩, nofun⟩ <;> intro s hs <;>
      rcases List.mem_append.mp hs with hs | hs
    · exact h.shardNames s hs
    · rw [List.mem_singleton.mp hs]
      split
      · exact fun hnil => absurd (List.append_eq_nil_iff.mp hnil).1 (by decide)
      · assumption
    · exact h.columns s hs
    · rw [List.mem_singleton.mp hs]
      split <;> exact hnamed

theorem sound_flushPropDef (h : st.Sound) : st.flushPropDef.Sound := by
  unfold LoadState.flushPropDef
  rcases st.propDef with _ | d
  · exact h
  · refine { h with defs := fun d' hd' => ?_ }
    rcases List.mem_append.mp hd' with hd' | hd'
    · exact h.defs d' hd'
    · simpa using (List.mem_filter.mp hd').2

theorem sound_rootField {key value : Text} (h : st.Sound)
    (hload : rootField st key value = some (.ok st')) : st'.Sound := by
  unfold rootField at hload
  split_ifs at hload
  · obtain ⟨n, -, rfl⟩ := map_eq_ok (Option.some.inj hload)
    exact { h with }
  · obtain ⟨b, -, rfl⟩ := map_eq_ok (Option.some.inj hload)
    exact { h with }
  · obtain ⟨n, -, rfl⟩ := map_eq_ok (Option.some.inj hload)
    exact { h with }
  · obtain ⟨n, -, rfl⟩ := map_eq_ok (Option.some.inj hload)
    exact { h with }
  · obtain ⟨n, hn, rfl⟩ := map_eq_ok (Option.some.inj hload)
    obtain ⟨hn, hpos⟩ := Option.filter_eq_some_iff.mp (invalid_eq_ok hn)
    exact { h with threads := ⟨of_decide_eq_true hpos, parseInt_lt hn⟩ }

theorem sound_sectionLine {line : Text} (h : st.Sound) (hload : sectionLine st line = .ok st') :
    st'.Sound := by
  unfold sectionLine at hload
  split at hload
  · obtain ⟨shard, hitem, rfl⟩ := map_eq_ok hload
    have hst : (if startsItem line then st.flushEdgeShard else st).Sound := by
      split
      · exact sound_flushEdgeShard h
      · exact h
    have hshard := named_itemLine h.openShard hitem
    exact { hst with openShard := fun s hs => Option.some.inj hs ▸ hshard }
  · unfold nodeDbLine at hload
    split at hload
    · cases hload
    · obtain ⟨shard, hfield, rfl⟩ := map_eq_ok hload
      exact { h with node := named_shardField h.node hfield }
  · obtain ⟨d, -, rfl⟩ := map_eq_ok hload
    have hst : (if startsItem line then st.flushPropDef else st).Sound := by
      split
      · exact sound_flushPropDef h
      · exact h
    exact { hst with }
  · cases hload

theorem sound_loadLine {line : Text} (h : st.Sound) (hload : loadLine st line = .ok st') :
    st'.Sound := by
  have hboth := sound_flushEdgeShard (sound_flushPropDef h)
  have hboth' := sound_flushPropDef (sound_flushEdgeShard h)
  unfold loadLine at hload
  split_ifs at hload
  · cases hload
    exact h
  · cases hload
    exact { hboth with }
  · cases hload
    exact { hboth with }
  · cases hload
    exact { hboth' with }
  · split at hload
    · rename_i loaded hroot
      obtain ⟨⟨key, value⟩, -, hfield⟩ := Option.bind_eq_some_iff.mp hroot
      exact sound_rootField h (hload ▸ hfield)
    · exact sound_sectionLine h hload

theorem sound_run {lines : List Text} (h : st.Sound) (hrun : run st lines = .ok st') :
    st'.Sound := by
  induction lines generalizing st with
  | nil =>
    cases hrun
    exact h
  | cons line lines ih =>
    rw [run_cons] at hrun
    rcases hload : loadLine st line with e | st₁
    · rw [hload] at hrun
      cases hrun
    · rw [hload] at hrun
      exact ih (sound_loadLine h hload) hrun

theorem sound_initial : ({} : LoadState).Sound where
  threads := by decide
  shardNames := nofun
  columns := nofun
  openShard := nofun
  node := nofun
  defs := nofun

theorem toOption_eq_some {ε α : Type} {x : Except ε α} {a : α} (h : x.toOption = some a) :
    x = .ok a := by
  rcases x with e | a'
  · cases h
  · exact congrArg Except.ok (Option.some.inj h)

theorem exists_sound_of_load {path : Text} {file : Option Text} {s : Schema}
    (h : loadSchemaFromYaml path file = .ok s) :
    ∃ st : LoadState, st.Sound ∧ finish st = .ok s := by
  rcases file with _ | text
  · cases h
  · have hload := toOption_loadSchemaFromYaml path text
    rw [h] at hload
    obtain ⟨st, hrun, hfinish⟩ := Option.bind_eq_some_iff.mp hload.symm
    exact ⟨st, sound_run sound_initial (toOption_eq_some hrun), toOption_eq_some hfinish⟩

theorem wellFormed_of_finish {s : Schema} (h : st.Sound) (hfinish : finish st = .ok s) :
    s.WellFormed := by
  have hsound := sound_flushPropDef (sound_flushEdgeShard h)
  unfold finish at hfinish
  dsimp only at hfinish
  split at hfinish
  · cases hfinish
  split at hfinish
  · cases hfinish
  rename_i hvertices hshards
  cases hfinish
  refine ⟨⟨?_, hsound.shardNames, hsound.columns, ?_, hsound.defs⟩,
    fun h0 => hvertices (Or.inr h0), hshards, ?_⟩ <;> dsimp only
  · rw [if_neg (Int.not_le.mpr hsound.threads.1)]
    exact hsound.threads
  · split <;> exact hsound.node
  · split
    · exact (by decide : "node_Db".toList ≠ [])
    · assumption

/-- Every schema that is loaded has vertices, threads and edge shards, and everything in it has a
name. -/
theorem loaded_schemas_are_well_formed (path : Text) (file : Option Text) {s : Schema}
    (h : loadSchemaFromYaml path file = .ok s) : s.WellFormed := by
  obtain ⟨st, hsound, hfinish⟩ := exists_sound_of_load h
  exact wellFormed_of_finish hsound hfinish

/-- What `smallFile` says, with a name for the shard and the widest shard's number of columns. -/
def smallSchema : Schema :=
  { maxVertexNum := 8
    subPropertyNum := 2
    edgeShards := [{ name := "edge_Db0".toList, properties := ["since".toList, "note".toList] }] }

theorem small_file_is_loaded :
    loadSchemaFromYaml [] (some smallFile) = .ok smallSchema ∧ smallSchema.WellFormed :=
  ⟨by decide +kernel, loaded_schemas_are_well_formed [] (some smallFile) (by decide +kernel)⟩

end SchemaFile

end RichGraph
