-- A put and the reads after it. The values of a put are joined to one payload for
-- each shard, compared with the text that deletes, and taken apart by position
-- when a property is read.
import RichGraph.ShardPuts

namespace RichGraph

open Store PropertyUpdateManager

/-! ## The columns of a payload -/

theorem bar_not_mem_extractSubProperty (payload : Bytes) (j : Nat) :
    bar ∉ extractSubProperty payload j := by
  induction j generalizing payload with
  | zero =>
    intro h
    have := List.mem_takeWhile_imp h
    simp at this
  | succ j ih => exact ih _

theorem ne_bar_of_mem {v : Bytes} (hv : bar ∉ v) : ∀ b ∈ v, decide (b ≠ bar) = true := by
  intro b hb
  have hne : b ≠ bar := fun heq => hv (heq ▸ hb)
  simpa using hne

/-- A value without a bar, and what stands after its bar. -/
theorem extractSubProperty_cons {v : Bytes} (hv : bar ∉ v) (rest : Bytes) :
    extractSubProperty (v ++ bar :: rest) 0 = v ∧
      ∀ j, extractSubProperty (v ++ bar :: rest) (j + 1) = extractSubProperty rest j := by
  have hall := ne_bar_of_mem hv
  constructor
  · rw [extractSubProperty, List.takeWhile_append_of_pos hall,
      List.takeWhile_cons_of_neg (by simp), List.append_nil]
  · intro j
    rw [extractSubProperty, List.dropWhile_append_of_pos hall,
      List.dropWhile_cons_of_neg (by simp), List.drop_one, List.tail_cons]

theorem extractSubProperty_single {v : Bytes} (hv : bar ∉ v) (j : Nat) :
    extractSubProperty v j = [v].getD j [] := by
  have hall := ne_bar_of_mem hv
  cases j with
  | zero => exact List.takeWhile_eq_self_iff.mpr hall
  | succ j =>
    rw [extractSubProperty, List.dropWhile_eq_nil_iff.mpr hall, List.drop_nil,
      extractSubProperty_nil]
    simp

/-- Values without bars come back column by column. -/
theorem extractSubProperty_intercalate {vs : List Bytes} (h : ∀ v ∈ vs, bar ∉ v) (j : Nat) :
    extractSubProperty ([bar].intercalate vs) j = vs.getD j [] := by
  induction vs generalizing j with
  | nil => exact extractSubProperty_nil j
  | cons v vs ih =>
    obtain ⟨hv, hvs⟩ := List.forall_mem_cons.mp h
    cases vs with
    | nil =>
      rw [List.intercalate_singleton]
      exact extractSubProperty_single hv j
    | cons w ws =>
      have hjoin : [bar].intercalate (v :: w :: ws) = v ++ bar :: [bar].intercalate (w :: ws) := by
        simp [List.intercalate]
      obtain ⟨hzero, hsucc⟩ := extractSubProperty_cons hv ([bar].intercalate (w :: ws))
      rw [hjoin]
      cases j with
      | zero => rw [hzero, List.getD_cons_zero]
      | succ j => rw [hsucc, ih hvs, List.getD_cons_succ]

theorem bar_not_mem_storedSubProperty (lengths : List Nat) (payload : Bytes) (j : Nat) :
    bar ∉ storedSubProperty lengths payload j := by
  intro h
  unfold storedSubProperty readSubPropertyFromSlot at h
  have h := (List.rdropWhile_prefix (fun b : UInt8 => b == 0) _).sublist.mem h
  unfold writeColumns at h
  rw [List.getD_eq_getElem?_getD, List.getElem?_mapIdx] at h
  cases hj : lengths[j]? with
  | none =>
    rw [hj] at h
    cases h
  | some len =>
    rw [hj] at h
    simp only [Option.map_some, Option.getD_some, writePaddedSubPropertySlot, List.mem_append] at h
    rcases h with h | h
    · exact bar_not_mem_extractSubProperty payload j (List.mem_of_mem_take h)
    · exact absurd (List.eq_of_mem_replicate h) (by decide)

/-- A value that fits its column is read from a file as it is read from memory. -/
theorem storedSubProperty_of_fits {lengths : List Nat} {payload : Bytes} {j len : Nat}
    (hj : lengths[j]? = some len) (hlen : (extractSubProperty payload j).length ≤ len)
    (hend : ∀ b ∈ (extractSubProperty payload j).getLast?, b ≠ 0) :
    storedSubProperty lengths payload j = extractSubProperty payload j := by
  unfold storedSubProperty writeColumns
  rw [List.getD_eq_getElem?_getD, List.getElem?_mapIdx, hj, Option.map_some, Option.getD_some]
  exact read_of_write_fits hlen hend

/-- What lies behind the last column of a file is read as empty. -/
theorem storedSubProperty_of_ge {lengths : List Nat} {payload : Bytes} {j : Nat}
    (hj : lengths.length ≤ j) : storedSubProperty lengths payload j = [] := by
  unfold storedSubProperty writeColumns
  rw [List.getD_eq_getElem?_getD, List.getElem?_mapIdx, List.getElem?_eq_none hj]
  rfl

/-- `Init` gives every column a width, and refuses an empty name and a name that is in two
places. -/
structure Schema.Wf (schema : Schema) : Prop where
  widths : ∀ i < schema.shardCount,
    (schema.options i).propertyLengths.length = (schema.properties i).length
  named : ∀ i < schema.shardCount, ∀ j < (schema.properties i).length,
    ∀ name ∈ (schema.properties i)[j]?, name ≠ "" ∧ schema.route name = some ⟨i, j⟩

namespace Store

variable {o : Options} {s s' : Store} {src dst : Nat} {payload : Bytes} {mode : EdgeInsertMode}
  {isOut : Bool} {edgeType : UInt8}

theorem mem_history_putEdge (h : putEdge o src dst payload mode isOut edgeType s = some s')
    {p : Nat × Edge} (hp : p ∈ s'.history) : p ∈ s.history ∨ p.2.property = payload := by
  obtain ⟨e, -, -, -, -, hprop, -, rfl | ⟨e', -, -, -, -, hprop', -, -, rfl⟩⟩ := putEdge_cases h
  · rw [putRecord_history] at hp
    rcases List.mem_cons.mp hp with rfl | hp
    · exact Or.inr hprop
    · exact Or.inl hp
  · rw [putRecord_history, putRecord_history] at hp
    rcases List.mem_cons.mp hp with rfl | hp
    · exact Or.inr hprop'
    · rcases List.mem_cons.mp hp with rfl | hp
      · exact Or.inr hprop
      · exact Or.inl hp

/-- After a put, the last put of its edge has the payload of the put. -/
theorem lastPut_putEdge (h : putEdge o src dst payload mode isOut edgeType s = some s') :
    ∃ e : Edge, s'.lastPut ⟨src, dst, isOut, edgeType⟩ = some (src, e) ∧ e.property = payload ∧
      e.marker = decide (payload = deletedPayload) := by
  obtain ⟨e, -, hdst, hout, htype, hprop, hmarker, hs⟩ := putEdge_cases h
  have hkey : putKey (src, e) = ⟨src, dst, isOut, edgeType⟩ := by
    simp [putKey, hdst, hout, htype]
  refine ⟨e, ?_, hprop, hmarker⟩
  rcases hs with rfl | ⟨e', -, -, hout', -, -, -, -, rfl⟩
  · rw [lastPut, putRecord_history, List.find?_cons_of_pos (by simpa using hkey)]
  · have hne : putKey (dst, e') ≠ ⟨src, dst, isOut, edgeType⟩ := by
      intro heq
      have := congrArg EdgeKey.isOut heq
      simp [putKey, hout'] at this
    rw [lastPut, putRecord_history, putRecord_history, List.find?_cons_of_neg (by simpa using hne),
      List.find?_cons_of_pos (by simpa using hkey)]

end Store

namespace GraphDb

variable {schema : Schema} {db db' : GraphDb} {incoming : List (String × Bytes)}

/-- The value that a put gives a property, empty when it does not name it. -/
def valueOf (incoming : List (String × Bytes)) (name : String) : Bytes :=
  (incoming.lookup name).getD []

/-- The values are within the widths of their columns and do not end in a zero byte. -/
def Fits (schema : Schema) (incoming : List (String × Bytes)) : Prop :=
  ∀ p ∈ incoming, ∀ r ∈ schema.route p.1,
    p.2.length ≤ (schema.options r.shardIdx).propertyLengths.getD r.localPropertyId 0 ∧
      ∀ b ∈ p.2.getLast?, b ≠ 0

/-- No value for the shard has a bar. -/
def Joins (schema : Schema) (incoming : List (String × Bytes)) (i : Nat) : Prop :=
  ∀ name ∈ schema.properties i, bar ∉ valueOf incoming name

instance (schema : Schema) (incoming : List (String × Bytes)) : Decidable (Fits schema incoming) :=
  inferInstanceAs (Decidable (∀ p ∈ incoming, _))

instance (schema : Schema) (incoming : List (String × Bytes)) (i : Nat) :
    Decidable (Joins schema incoming i) :=
  inferInstanceAs (Decidable (∀ name ∈ schema.properties i, _))

theorem route_spec {name : String} {r : PropertyRoute} (h : schema.route name = some r) :
    (schema.properties r.shardIdx)[r.localPropertyId]? = some name := by
  unfold Schema.route at h
  obtain ⟨i, -, hfind⟩ := List.exists_of_findSome?_eq_some h
  obtain ⟨pid, hpid, rfl⟩ := Option.map_eq_some_iff.mp hfind
  obtain ⟨hlt, heq, -⟩ := List.idxOf?_eq_some_iff.mp hpid
  rw [List.getElem?_eq_getElem hlt]
  simpa using heq

theorem valueOf_fits (hwf : schema.Wf) (hfits : Fits schema incoming) {i j : Nat}
    (hi : i < schema.shardCount) {name : String} (hj : (schema.properties i)[j]? = some name) :
    ∃ len, (schema.options i).propertyLengths[j]? = some len ∧
      (valueOf incoming name).length ≤ len ∧ ∀ b ∈ (valueOf incoming name).getLast?, b ≠ 0 := by
  have hlt := (List.getElem?_eq_some_iff.mp hj).1
  have hlt' : j < (schema.options i).propertyLengths.length := by rwa [hwf.widths i hi]
  refine ⟨_, List.getElem?_eq_getElem hlt', ?_⟩
  unfold valueOf
  cases hl : incoming.lookup name with
  | none => simp
  | some v =>
    have hmem : (name, v) ∈ incoming := Lib.mem_of_lookup hl
    have := hfits _ hmem ⟨i, j⟩ (hwf.named i hi j hlt name hj).2
    rwa [List.getD_eq_getElem?_getD, List.getElem?_eq_getElem hlt', Option.getD_some] at this

/-- The columns of the payload of a shard, when no value has a bar. -/
theorem extract_build {i : Nat} (hjoins : Joins schema incoming i) (j : Nat) :
    extractSubProperty (buildShardPropertyString (schema.properties i) incoming) j =
      (((schema.properties i)[j]?).map (valueOf incoming)).getD [] := by
  unfold buildShardPropertyString
  have hall : ∀ v ∈ (schema.properties i).map (valueOf incoming), bar ∉ v := by
    intro v hv
    obtain ⟨name, hname, rfl⟩ := List.mem_map.mp hv
    exact hjoins name hname
  have := extractSubProperty_intercalate hall j
  rw [List.getD_eq_getElem?_getD, List.getElem?_map] at this
  exact this

/-- A file gives the columns back as memory does. -/
theorem stored_build (hwf : schema.Wf) (hfits : Fits schema incoming) {i : Nat}
    (hi : i < schema.shardCount) (hjoins : Joins schema incoming i) (j : Nat) :
    storedSubProperty (schema.options i).propertyLengths
        (buildShardPropertyString (schema.properties i) incoming) j =
      extractSubProperty (buildShardPropertyString (schema.properties i) incoming) j := by
  have hcolumn := extract_build hjoins j
  cases hj : (schema.properties i)[j]? with
  | none =>
    rw [hj] at hcolumn
    have hge := List.getElem?_eq_none_iff.mp hj
    rw [← hwf.widths i hi] at hge
    rw [storedSubProperty_of_ge hge, hcolumn]
    rfl
  | some name =>
    obtain ⟨len, hlen, hfit, hend⟩ := valueOf_fits hwf hfits hi hj
    rw [hj] at hcolumn
    refine storedSubProperty_of_fits hlen ?_ ?_
    · rw [hcolumn]
      exact hfit
    · rw [hcolumn]
      exact hend

/-! ## Runs -/

/-- Every shard answers from the last put, and nothing is buffered. -/
structure Orderly (schema : Schema) (db : GraphDb) : Prop where
  order : ∀ i < schema.shardCount, InOrder (schema.options i) (db.stores i)
  sequence_le : ∀ i < schema.shardCount, (db.stores i).nextSequence ≤ db.nextSequence
  latest : ∀ k r, db.lookupLatest k r = none
  deltas : db.deltas = fun _ => noDeltas

/-- A put keeps the order in every shard that it writes. -/
def PutsInOrder (schema : Schema) (db : GraphDb) (src dst : Nat) (incoming : List (String × Bytes))
    (mode : EdgeInsertMode) (isOut : Bool) (edgeType : UInt8) : Prop :=
  ∀ touched ∈ schema.touchedShards incoming, ∀ i ∈ touched,
    OrderedStep (schema.options i) { db.stores i with nextSequence := db.nextSequence }
      (shardPut schema src dst incoming mode isOut edgeType i)

instance (schema : Schema) (db : GraphDb) (src dst : Nat) (incoming : List (String × Bytes))
    (mode : EdgeInsertMode) (isOut : Bool) (edgeType : UInt8) :
    Decidable (PutsInOrder schema db src dst incoming mode isOut edgeType) :=
  inferInstanceAs (Decidable (∀ touched ∈ schema.touchedShards incoming, _))

/-- A flush or a compaction of a shard that keeps the order. -/
def QuietStep (schema : Schema) (db : GraphDb) : Action → Prop
  | .putNode => True
  | .shard i a => OrderedStep (schema.options i) (db.stores i) a
  | _ => False

instance (schema : Schema) (db : GraphDb) (a : Action) : Decidable (QuietStep schema db a) := by
  cases a <;> unfold QuietStep <;> infer_instance

/-- Puts that keep the order, of values that fit and have no bar, and quiet steps. -/
def PlainStep (schema : Schema) (db : GraphDb) : Action → Prop
  | .putEdge src dst incoming mode isOut edgeType =>
    PutsInOrder schema db src dst incoming mode isOut edgeType ∧ Fits schema incoming ∧
      ∀ i < schema.shardCount, Joins schema incoming i
  | a => QuietStep schema db a

/-- A file gives back every column of every record that was put. -/
def Whole (schema : Schema) (db : GraphDb) : Prop :=
  ∀ i < schema.shardCount, ∀ p ∈ (db.stores i).history, ∀ j,
    storedSubProperty (schema.options i).propertyLengths p.2.property j =
      extractSubProperty p.2.property j

theorem orderly_initial (schema : Schema) (updatesEnabled : Bool) :
    Orderly schema (initial schema updatesEnabled) where
  order i _ := inOrder_initial _
  sequence_le _ _ := le_refl _
  latest k r := by
    unfold lookupLatest initial
    cases updatesEnabled <;> rfl
  deltas := rfl

theorem putEdge_cases {src dst : Nat} {mode : EdgeInsertMode} {isOut : Bool} {edgeType : UInt8}
    {status : Status}
    (h : putEdge schema src dst incoming mode isOut edgeType db = some (status, db')) :
    (status = .kInvalidArgument ∧ db' = db) ∨ ∃ touched, status = .kOk ∧
      schema.touchedShards incoming = some touched ∧
      putTouched schema touched (shardPut schema src dst incoming mode isOut edgeType) db =
        some db' := by
  unfold putEdge at h
  split at h
  · cases h
    exact Or.inl ⟨rfl, rfl⟩
  · cases h
    exact Or.inl ⟨rfl, rfl⟩
  · rename_i touched _ htouched
    obtain ⟨db₁, hput, heq⟩ := Option.map_eq_some_iff.mp h
    cases heq
    exact Or.inr ⟨touched, rfl, htouched, hput⟩

/-- A put does not change what is buffered. -/
theorem buffered_putTouched {touched : List Nat} {put : Nat → Store.Action}
    (h : putTouched schema touched put db = some db') :
    db'.pending = db.pending ∧ db'.deltas = db.deltas := by
  unfold putTouched at h
  dsimp only at h
  split at h
  · cases h
    exact ⟨rfl, rfl⟩
  · cases h

theorem orderly_putTouched {src dst : Nat} {mode : EdgeInsertMode} {isOut : Bool} {edgeType : UInt8}
    {touched : List Nat} (h : Orderly schema db)
    (htouched : schema.touchedShards incoming = some touched)
    (hok : PutsInOrder schema db src dst incoming mode isOut edgeType)
    (hs : putTouched schema touched (shardPut schema src dst incoming mode isOut edgeType) db =
      some db') : Orderly schema db' := by
  obtain ⟨hseq, hrest, hput⟩ := putTouched_spec hs
  obtain ⟨hpending, hdeltas⟩ := buffered_putTouched hs
  refine ⟨?_, ?_, ?_, hdeltas.trans h.deltas⟩
  · intro i hi
    by_cases hin : i ∈ touched
    · exact inOrder_step (inOrder_nextSequence (h.order i hi) (h.sequence_le i hi))
        (hok touched htouched i hin) (hput i hin)
    · rw [hrest i hin]
      exact h.order i hi
  · intro i hi
    rw [hseq]
    by_cases hin : i ∈ touched
    · rw [(topology_putEdge (hput i hin)).2]
    · rw [hrest i hin]
      exact Nat.le_succ_of_le (h.sequence_le i hi)
  · intro k r
    have := h.latest k r
    unfold lookupLatest at this ⊢
    rwa [hpending]

/-- A quiet step keeps what was put. -/
theorem quiet_step {a : Action} (h : Orderly schema db) (hok : QuietStep schema db a)
    (hs : step schema db a = some db') :
    Orderly schema db' ∧ ∀ i, (db'.stores i).history = (db.stores i).history := by
  cases a with
  | putNode =>
    cases hs
    exact ⟨⟨h.order, fun i hi => Nat.le_succ_of_le (h.sequence_le i hi), h.latest, h.deltas⟩,
      fun _ => rfl⟩
  | shard i a =>
    simp only [step] at hs
    split at hs
    · rename_i hguard
      obtain ⟨s', hs', rfl⟩ := Option.map_eq_some_iff.mp hs
      obtain ⟨hhist, hseq⟩ := history_background hguard.2 hs'
      refine ⟨⟨?_, ?_, h.latest, h.deltas⟩, ?_⟩
      · intro j hj
        dsimp only
        split
        · rename_i hji
          subst hji
          exact inOrder_step (h.order j hj) hok hs'
        · exact h.order j hj
      · intro j hj
        dsimp only
        split
        · rename_i hji
          subst hji
          rw [hseq]
          exact h.sequence_le j hj
        · exact h.sequence_le j hj
      · intro j
        dsimp only
        split
        · rename_i hji
          rw [hhist, hji]
        · rfl
    · cases hs
  | putEdge => exact absurd hok id
  | updateEdge => exact absurd hok id
  | retire => exact absurd hok id
  | deltas => exact absurd hok id

theorem quiet_run (h : Orderly schema db)
    (hrun : Lib.Reach (step schema) (QuietStep schema) db db') :
    Orderly schema db' ∧ ∀ i, (db'.stores i).history = (db.stores i).history := by
  induction hrun with
  | start => exact ⟨h, fun _ => rfl⟩
  | step _ hok hs ih =>
    obtain ⟨hord, hhist⟩ := quiet_step ih.1 hok hs
    exact ⟨hord, fun i => (hhist i).trans (ih.2 i)⟩

theorem plain_step (hwf : schema.Wf) {a : Action} (h : Orderly schema db ∧ Whole schema db)
    (hok : PlainStep schema db a) (hs : step schema db a = some db') :
    Orderly schema db' ∧ Whole schema db' := by
  have hquiet : QuietStep schema db a → Orderly schema db' ∧ Whole schema db' := by
    intro hq
    obtain ⟨hord, hhist⟩ := quiet_step h.1 hq hs
    refine ⟨hord, fun i hi p hp => ?_⟩
    rw [hhist i] at hp
    exact h.2 i hi p hp
  cases a with
  | putEdge src dst incoming mode isOut edgeType =>
    obtain ⟨hin, hfits, hjoins⟩ := hok
    obtain ⟨result, hput, rfl⟩ := Option.map_eq_some_iff.mp hs
    rcases putEdge_cases hput with ⟨-, heq⟩ | ⟨touched, -, htouched, hput⟩
    · rw [heq]
      exact h
    · refine ⟨orderly_putTouched h.1 htouched hin hput, fun i hi p hp j => ?_⟩
      obtain ⟨-, hrest, hstep⟩ := putTouched_spec hput
      by_cases hit : i ∈ touched
      · rcases mem_history_putEdge (hstep i hit) hp with hp | hp
        · exact h.2 i hi p hp j
        · rw [hp]
          exact stored_build hwf hfits hi (hjoins i hi) j
      · rw [hrest i hit] at hp
        exact h.2 i hi p hp j
  | putNode => exact hquiet hok
  | shard i a => exact hquiet hok
  | updateEdge => exact absurd hok id
  | retire => exact absurd hok id
  | deltas => exact absurd hok id

/-! ## What is read -/

/-- A property is read from the last put of the edge in its shard. -/
theorem getProperty_ok_iff (h : Orderly schema db) {k : EdgeKey} {r : PropertyRoute}
    (hr : r.shardIdx < schema.shardCount) {value : Bytes} (hget : db.getProperty k r = .ok value) :
    ∃ p, (db.stores r.shardIdx).lastPut k = some p ∧ p.2.marker = false ∧
      (value = extractSubProperty p.2.property r.localPropertyId ∨
        value = storedSubProperty (schema.options r.shardIdx).propertyLengths p.2.property
          r.localPropertyId) := by
  have hanswers := getEdge_answers (h.order _ hr) k r.localPropertyId
  unfold getProperty at hget
  rw [h.latest k r] at hget
  simp only [storedProperty, h.deltas] at hget
  cases hlast : (db.stores r.shardIdx).lastPut k with
  | none =>
    rw [hlast] at hanswers
    rw [show _ = Except.error Status.kNotFound from hanswers] at hget
    cases hget
  | some p =>
    refine ⟨p, rfl, ?_⟩
    rw [hlast] at hanswers
    cases hm : p.2.marker with
    | true =>
      simp only [Answers, hm, if_true] at hanswers
      rw [hanswers] at hget
      cases hget
    | false =>
      simp only [Answers, hm, Bool.false_eq_true, if_false] at hanswers
      rcases hanswers with hans | hans
      · rw [hans] at hget
        cases hget
        exact ⟨rfl, Or.inl rfl⟩
      · rw [hans] at hget
        cases hget
        exact ⟨rfl, Or.inr rfl⟩

theorem getProperty_of_lastPut (h : Orderly schema db) {k : EdgeKey} {r : PropertyRoute}
    (hr : r.shardIdx < schema.shardCount) {p : Nat × Edge}
    (hlast : (db.stores r.shardIdx).lastPut k = some p) (hm : p.2.marker = false)
    (hsame : storedSubProperty (schema.options r.shardIdx).propertyLengths p.2.property
      r.localPropertyId = extractSubProperty p.2.property r.localPropertyId) :
    db.getProperty k r = .ok (extractSubProperty p.2.property r.localPropertyId) := by
  have hanswers := getEdge_answers (h.order _ hr) k r.localPropertyId
  rw [hlast] at hanswers
  simp only [Answers, hm, Bool.false_eq_true, if_false, hsame, or_self] at hanswers
  unfold getProperty
  rw [h.latest k r]
  simp only [storedProperty, h.deltas, hanswers]

theorem valueOf_untouched {touched : List Nat}
    (htouched : schema.touchedShards incoming = some touched)
    {name : String} {r : PropertyRoute} (hroute : schema.route name = some r)
    (hr : r.shardIdx ∉ touched) : valueOf incoming name = [] := by
  unfold valueOf
  cases hl : incoming.lookup name with
  | none => rfl
  | some v =>
    obtain ⟨routes, hroutes, rfl⟩ := Option.map_eq_some_iff.mp htouched
    obtain ⟨r', hr', heq⟩ := Lib.exists_mem_of_mapM hroutes (Lib.mem_of_lookup hl)
    rw [hroute] at heq
    cases heq
    exact absurd (List.mem_map_of_mem hr') hr

/-- `GetEdge` of any set of properties answers as its turns do. -/
theorem getEdge_all_iff (hwf : schema.Wf) (k : EdgeKey) (value : String → Bytes) :
    (∀ names routes, schema.resolveEdgePropertyRoutes names = some routes →
      getEdge schema db k names = .ok (routes.map fun p => (p.1, value p.1))) ↔
    ∀ i < schema.shardCount, ∀ j name, (schema.properties i)[j]? = some name →
      db.getProperty k ⟨i, j⟩ = .ok (value name) := by
  constructor
  · intro h i hi j name hj
    obtain ⟨hne, hroute⟩ := hwf.named i hi j (List.getElem?_eq_some_iff.mp hj).1 name hj
    have hresolve : schema.resolveEdgePropertyRoutes [name] = some [(name, ⟨i, j⟩)] := by
      simp [Schema.resolveEdgePropertyRoutes, Schema.resolve, hne, hroute]
    have hget := h [name] _ hresolve
    unfold getEdge at hget
    rw [hresolve] at hget
    obtain ⟨-, hvalues⟩ := Lib.mapM_ok hget
    obtain ⟨p, hp, hok⟩ := hvalues (name, value name) (by simp)
    rw [List.mem_singleton.mp hp] at hok
    cases hg : db.getProperty k ⟨i, j⟩ with
    | error status =>
      rw [hg] at hok
      cases hok
    | ok v =>
      rw [hg] at hok
      cases hok
      rfl
  · intro h names routes hresolve
    obtain ⟨-, -, hroutes⟩ := resolveEdgePropertyRoutes_spec hresolve
    unfold getEdge
    rw [hresolve]
    apply Lib.mapM_eq_ok_map
    intro p hp
    obtain ⟨hroute, hlt⟩ := hroutes p hp
    rw [h p.2.shardIdx hlt p.2.localPropertyId p.1 (route_spec hroute)]
    rfl

/-- The shards after a put and any flushes and compactions. -/
structure AfterPut (schema : Schema) (db db₂ : GraphDb) (k : EdgeKey)
    (incoming : List (String × Bytes)) (touched : List Nat) : Prop where
  whole : Whole schema db
  orderly : Orderly schema db₂
  written : ∀ i ∈ touched, ∃ e : Edge, (db₂.stores i).lastPut k = some (k.src, e) ∧
    e.property = buildShardPropertyString (schema.properties i) incoming ∧
    e.marker = decide (buildShardPropertyString (schema.properties i) incoming = deletedPayload)
  kept : ∀ i ∉ touched, (db₂.stores i).lastPut k = (db.stores i).lastPut k

theorem afterPut_of_runs {updatesEnabled : Bool} {db₁ db₂ : GraphDb} (hwf : schema.Wf)
    (hrun : Lib.Reach (step schema) (PlainStep schema) (initial schema updatesEnabled) db)
    {src dst : Nat} {mode : EdgeInsertMode} {isOut : Bool} {edgeType : UInt8} {touched : List Nat}
    (htouched : schema.touchedShards incoming = some touched)
    (hput : putEdge schema src dst incoming mode isOut edgeType db = some (.kOk, db₁))
    (horder : PutsInOrder schema db src dst incoming mode isOut edgeType)
    (hlater : Lib.Reach (step schema) (QuietStep schema) db₁ db₂) :
    AfterPut schema db db₂ ⟨src, dst, isOut, edgeType⟩ incoming touched := by
  obtain ⟨hord, hwhole⟩ := hrun.invariant
    (⟨orderly_initial schema updatesEnabled, fun i _ p hp => by cases hp⟩ :
      Orderly schema (initial schema updatesEnabled) ∧ Whole schema (initial schema updatesEnabled))
    fun _ _ _ hinv hok hs => plain_step hwf hinv hok hs
  rcases putEdge_cases hput with ⟨hbad, -⟩ | ⟨touched', -, htouched', hput⟩
  · cases hbad
  rw [htouched] at htouched'
  cases htouched'
  obtain ⟨hord₂, hhist⟩ := quiet_run (orderly_putTouched hord htouched horder hput) hlater
  obtain ⟨-, hrest, hstep⟩ := putTouched_spec hput
  refine ⟨hwhole, hord₂, fun i hi => ?_, fun i hi => ?_⟩
  · have hlast := lastPut_putEdge (hstep i hi)
    unfold lastPut at hlast ⊢
    rwa [hhist i]
  · unfold lastPut
    rw [hhist i, hrest i hi]

section

variable {db₂ : GraphDb} {touched : List Nat}

/-- Every value of a written shard is read from its payload, so it has no bar. -/
theorem AfterPut.joins_of_reads (h : AfterPut schema db db₂ k incoming touched) {i : Nat}
    (hi : i < schema.shardCount) (hne : schema.properties i ≠ []) (hit : i ∈ touched)
    (hget : ∀ (j : Nat) (name : String), (schema.properties i)[j]? = some name →
      db₂.getProperty k ⟨i, j⟩ = .ok (valueOf incoming name)) :
    Joins schema incoming i ∧
      buildShardPropertyString (schema.properties i) incoming ≠ deletedPayload := by
  obtain ⟨e, hlast, -, hmarker⟩ := h.written i hit
  have hread : ∀ (j : Nat) (name : String), (schema.properties i)[j]? = some name →
      e.marker = false ∧ bar ∉ valueOf incoming name := by
    intro j name hj
    obtain ⟨p, hp, hm, hvalue⟩ := getProperty_ok_iff h.orderly (k := k) (r := ⟨i, j⟩) hi
      (hget j name hj)
    rw [hlast] at hp
    cases hp
    refine ⟨hm, ?_⟩
    rcases hvalue with hvalue | hvalue
    · rw [hvalue]
      exact bar_not_mem_extractSubProperty _ _
    · rw [hvalue]
      exact bar_not_mem_storedSubProperty _ _ _
  constructor
  · intro name hname
    obtain ⟨j, hj⟩ := List.mem_iff_getElem?.mp hname
    exact (hread j name hj).2
  · have hm := (hread 0 _ (List.getElem?_eq_getElem (List.length_pos_iff.mpr hne))).1
    rw [hmarker] at hm
    exact of_decide_eq_false hm

/-- A shard that is not written answers with the empty columns of an older record. -/
theorem AfterPut.empty_of_reads (h : AfterPut schema db db₂ k incoming touched) {i : Nat}
    (hi : i < schema.shardCount) (hne : schema.properties i ≠ []) (hit : i ∉ touched)
    (hget : ∀ j < (schema.properties i).length, db₂.getProperty k ⟨i, j⟩ = .ok []) :
    ∃ p, (db.stores i).lastPut k = some p ∧ p.2.marker = false ∧
      ∀ j < (schema.properties i).length, extractSubProperty p.2.property j = [] := by
  have hread : ∀ j < (schema.properties i).length, ∃ p,
      (db.stores i).lastPut k = some p ∧ p.2.marker = false ∧
        extractSubProperty p.2.property j = [] := by
    intro j hj
    obtain ⟨p, hp, hm, hvalue⟩ := getProperty_ok_iff h.orderly (k := k) (r := ⟨i, j⟩) hi (hget j hj)
    rw [h.kept i hit] at hp
    rw [h.whole i hi p (List.mem_of_find?_eq_some hp) j, or_self] at hvalue
    exact ⟨p, hp, hm, hvalue.symm⟩
  obtain ⟨p, hp, hm, -⟩ := hread 0 (List.length_pos_iff.mpr hne)
  refine ⟨p, hp, hm, fun j hj => ?_⟩
  obtain ⟨p', hp', -, hempty⟩ := hread j hj
  rw [hp] at hp'
  cases hp'
  exact hempty

theorem AfterPut.reads_of_joins (h : AfterPut schema db db₂ k incoming touched) {i j : Nat}
    {name : String} (hwf : schema.Wf) (hfits : Fits schema incoming) (hi : i < schema.shardCount)
    (hit : i ∈ touched) (hj : (schema.properties i)[j]? = some name)
    (hjoins : Joins schema incoming i)
    (hlive : buildShardPropertyString (schema.properties i) incoming ≠ deletedPayload) :
    db₂.getProperty k ⟨i, j⟩ = .ok (valueOf incoming name) := by
  obtain ⟨e, hlast, hprop, hmarker⟩ := h.written i hit
  have hvalue := extract_build hjoins j
  rw [hj, Option.map_some, Option.getD_some] at hvalue
  have hread := getProperty_of_lastPut h.orderly (k := k) (r := ⟨i, j⟩) hi hlast
    (by rw [hmarker]; exact decide_eq_false hlive)
    (by rw [hprop]; exact stored_build hwf hfits hi hjoins j)
  rw [hread, hprop, hvalue]

theorem AfterPut.reads_of_empty (h : AfterPut schema db db₂ k incoming touched) {i j : Nat}
    {p : Nat × Edge} (hi : i < schema.shardCount) (hit : i ∉ touched)
    (hp : (db.stores i).lastPut k = some p) (hm : p.2.marker = false)
    (hempty : extractSubProperty p.2.property j = []) :
    db₂.getProperty k ⟨i, j⟩ = .ok [] := by
  have hwhole := h.whole i hi p (List.mem_of_find?_eq_some hp) j
  rw [← h.kept i hit] at hp
  rw [getProperty_of_lastPut h.orderly (k := k) (r := ⟨i, j⟩) hi hp hm hwhole, hempty]

end

/-- One shard with two columns; an edge fills a memtable. -/
def twoColumns : Schema :=
  { shardCount := 1
    options := fun _ => { smallStore with propertyLengths := [4, 4] }
    properties := fun _ => ["A", "B"] }

theorem wf_twoColumns : twoColumns.Wf := ⟨by decide, by decide⟩

/-- The database after a put of both columns. -/
def putBoth : GraphDb :=
  ((putEdge twoColumns 1 2 [("A", bytes "a"), ("B", bytes "b")] .kSingle true 0
    (initial twoColumns false)).map Prod.snd).getD (initial twoColumns false)

/-- A column whose only value is the text that deletes. -/
def oneColumn : Schema :=
  { shardCount := 1
    options := fun _ => { smallStore with propertyLengths := [16] }
    properties := fun _ => ["A"] }

end GraphDb

end RichGraph
