-- Flushes and the sources of the edges. A put takes any source; the flush of a
-- table visits the sources that have been allocated, and ends the process when
-- it does not find all the edges of the table.
import RichGraph.ShardPuts

namespace RichGraph

/-- `init_vertex_adjs` -/
def MemTable.initVertexAdjs (v : Nat) (t : MemTable) : MemTable :=
  { t with vertexAdjs := t.vertexAdjs.erase v }

/-- What `new_vertex` does after it has taken the id `v`. -/
def Store.initVertex (v : Nat) (s : Store) : Store :=
  { s with
    index := fun u => if u = v then .empty else s.index u
    vertexMaxLevel := fun u => if u = v then -1 else s.vertexMaxLevel u
    immutables := s.immutables.map (MemTable.initVertexAdjs v)
    active := s.active.initVertexAdjs v }

namespace MemTable

/-- What a table holds of the edges that it has accepted. `n` vertices are allocated, and `early`
are the sources that were not allocated when an edge was put to them. -/
structure Held (n : Nat) (accepted : List (Nat × Edge)) (early : List Nat) (t : MemTable) :
    Prop where
  kept : ∀ v, v ∉ early → (t.adj v).edges.Perm ((accepted.filter (·.1 = v)).map Prod.snd)
  fewer : ∀ v, v ∈ early → v < n → (t.adj v).edges.length < (accepted.filter (·.1 = v)).length
  put : ∀ v ∈ early, ∃ e, (v, e) ∈ accepted
  allocated : ∀ p ∈ accepted, p.1 ∉ early → p.1 < n
  listed : t.Listed
  length : t.listLength = accepted.length

variable {n : Nat} {accepted : List (Nat × Edge)} {early : List Nat} {t : MemTable}

theorem held_fresh (n fid maxEdgeNum : Nat) : Held n [] [] (fresh fid maxEdgeNum) where
  kept v _ := by simp [fresh, adj, NewEdgeSL.edges]
  fewer v hv := by cases hv
  put v hv := by cases hv
  allocated p hp := by cases hp
  listed := listed_fresh fid maxEdgeNum
  length := rfl

theorem adj_initVertexAdjs (u v : Nat) :
    (t.initVertexAdjs u).adj v = if v = u then .array [] else t.adj v := by
  unfold initVertexAdjs adj
  by_cases h : v = u
  · subst h
    simp [AList.lookup_erase]
  · simp [AList.lookup_erase_ne h, h]

/-- A put to a source that is allocated, or one that joins the early ones. -/
theorem held_putEdge {reserveNode src : Nat} {e : Edge} {early' : List Nat}
    (h : Held n accepted early t) (hsub : ∀ v, v ∈ early' ↔ v ∈ early ∨ v = src ∧ n ≤ src) :
    Held n ((src, e) :: accepted) early' (t.putEdge reserveNode src e) := by
  have hself : ∀ v, v = src → (((src, e) :: accepted).filter (·.1 = v)) =
      (src, e) :: accepted.filter (·.1 = v) := by
    rintro v rfl
    simp
  have hother : ∀ v, v ≠ src → (((src, e) :: accepted).filter (·.1 = v)) =
      accepted.filter (·.1 = v) := by
    intro v hv
    rw [List.filter_cons_of_neg (by simpa using fun heq => hv heq.symm)]
  have hperm := NewEdgeSL.edges_putEdge_perm reserveNode e (t.adj src)
  refine ⟨?_, ?_, ?_, ?_, listed_putEdge h.listed, ?_⟩
  · intro v hv
    rw [hsub, not_or] at hv
    rw [adj_putEdge]
    split
    · rename_i heq
      subst heq
      rw [hself v rfl, List.map_cons]
      exact hperm.trans ((h.kept v hv.1).cons e)
    · rename_i hne
      rw [hother v hne]
      exact h.kept v hv.1
  · intro v hv hlt
    rw [hsub] at hv
    have hold : v ∈ early := hv.resolve_right fun hnew => by omega
    have hfewer := h.fewer v hold hlt
    rw [adj_putEdge]
    split
    · rename_i heq
      subst heq
      rw [hself v rfl, hperm.length_eq, List.length_cons, List.length_cons]
      omega
    · rename_i hne
      rw [hother v hne]
      exact hfewer
  · intro v hv
    rcases (hsub v).mp hv with hv | ⟨rfl, -⟩
    · obtain ⟨e', he'⟩ := h.put v hv
      exact ⟨e', List.mem_cons_of_mem _ he'⟩
    · exact ⟨e, List.mem_cons_self⟩
  · intro p hp hnot
    rw [hsub, not_or] at hnot
    rcases List.mem_cons.mp hp with rfl | hp
    · by_contra hge
      exact hnot.2 ⟨rfl, by omega⟩
    · exact h.allocated p hp hnot.1
  · simp [putEdge, h.length]

/-- The next vertex is allocated. Its adjacency list is thrown away. -/
theorem held_initVertexAdjs (h : Held n accepted early t) :
    Held (n + 1) accepted early (t.initVertexAdjs n) := by
  refine ⟨?_, ?_, h.put, ?_, ?_, h.length⟩
  · intro v hv
    rw [adj_initVertexAdjs]
    split
    · rename_i heq
      subst heq
      have hnone : accepted.filter (·.1 = v) = [] := by
        rw [List.filter_eq_nil_iff]
        intro p hp hpv
        have hpv : p.1 = v := by simpa using hpv
        exact absurd (h.allocated p hp (hpv ▸ hv)) (by omega)
      rw [hnone]
      exact List.Perm.refl _
    · exact h.kept v hv
  · intro v hv hlt
    rw [adj_initVertexAdjs]
    split
    · obtain ⟨e, he⟩ := h.put v hv
      have hmem : (v, e) ∈ accepted.filter (·.1 = v) := by simp [he]
      exact List.length_pos_of_mem hmem
    · exact h.fewer v hv (by omega)
  · intro p hp hnot
    exact Nat.lt_succ_of_lt (h.allocated p hp hnot)
  · intro v hv
    have hne : v ≠ n := by
      rintro rfl
      simp [initVertexAdjs, AList.lookup_erase] at hv
    rw [adj_initVertexAdjs, if_neg hne]
    apply h.listed v
    rwa [initVertexAdjs, AList.lookup_erase_ne hne] at hv

theorem held_sortAdjacency (src : Nat) (h : Held n accepted early t) :
    Held n accepted early (t.sortAdjacency src) := by
  have hperm : ∀ v, ((t.sortAdjacency src).adj v).edges.Perm (t.adj v).edges := by
    intro v
    rw [adj_sortAdjacency]
    split
    · rename_i heq
      rw [heq]
      exact NewEdgeSL.edges_sort_perm _
    · exact List.Perm.refl _
  refine ⟨?_, ?_, h.put, h.allocated, ?_, ?_⟩
  · exact fun v hv => (hperm v).trans (h.kept v hv)
  · intro v hv hlt
    rw [(hperm v).length_eq]
    exact h.fewer v hv hlt
  · intro v hv hnil
    have := hperm v
    rw [hnil] at this
    exact h.listed v (isSome_lookup_sortAdjacency hv) this.nil_eq.symm
  · rw [← h.length]
    unfold sortAdjacency
    split <;> rfl

/-! ## The flush -/

/-- The edges that the table has accepted for a source, as a file has them. -/
def acceptedRecords (lengths : List Nat) (accepted : List (Nat × Edge)) (v : Nat) :
    List EdgeRecord :=
  (accepted.filter (·.1 = v)).map fun p => p.2.toRecord lengths v

theorem src_lt_of_save2eSSTable {lengths : List Nat} {hv : n ≤ invalidVertexId} {f : SSTable}
    (h : t.save2eSSTable lengths n hv = some f) {v : Nat} (hf : f.recordsOf v ≠ []) : v < n := by
  obtain ⟨-, -, hrecords, -⟩ := save2eSSTable_cases h
  obtain ⟨r, hr⟩ := List.exists_mem_of_ne_nil _ hf
  obtain ⟨hrec, hsrc⟩ := SSTable.mem_recordsOf.mp hr
  rw [hrecords] at hrec
  obtain ⟨u, hu, hflushed⟩ := List.mem_flatMap.mp hrec
  rw [← hsrc, flushed_src lengths u r hflushed]
  exact List.mem_range.mp (List.mem_of_mem_filter hu)

/-- Without early sources the flush finds every source and every edge of the table. -/
theorem Held.flushes (h : Held n accepted [] t) (hput : accepted ≠ []) (lengths : List Nat)
    (hv : n ≤ invalidVertexId) : ∃ f, t.save2eSSTable lengths n hv = some f := by
  have hkept : ∀ v, (t.adj v).edges.length = (accepted.filter (·.1 = v)).length := by
    intro v
    rw [(h.kept v (by simp)).length_eq, List.length_map]
  have hmem : ∀ v, v ∈ t.vertexSet n ↔ (t.vertexAdjs.lookup v).isSome := by
    intro v
    simp only [vertexSet, List.mem_filter, List.mem_range]
    refine ⟨fun hin => hin.2, fun hin => ⟨?_, hin⟩⟩
    have hpos := List.length_pos_iff.mpr (h.listed v hin)
    rw [hkept v] at hpos
    obtain ⟨p, hp⟩ := List.exists_mem_of_length_pos hpos
    obtain ⟨hp, hpv⟩ := List.mem_filter.mp hp
    have hpv : p.1 = v := by simpa using hpv
    exact hpv ▸ h.allocated p hp (by simp)
  have hnodup : (t.vertexSet n).Nodup := (pairwise_vertexSet n).imp Nat.ne_of_lt
  have hkeys : (t.vertexSet n).length = t.vertexAdjs.keys.length := by
    apply List.Perm.length_eq
    rw [List.perm_ext_iff_of_nodup hnodup t.vertexAdjs.keys_nodup]
    intro v
    rw [hmem, AList.lookup_isSome, AList.mem_keys]
  have hsources : ∀ p ∈ accepted, p.1 ∈ t.vertexSet n := by
    intro p hp
    rw [hmem]
    by_contra hnone
    have hnil : (t.adj p.1).edges = [] := by
      simp [adj, Option.not_isSome_iff_eq_none.mp hnone, NewEdgeSL.edges]
    have hmem : p ∈ accepted.filter (·.1 = p.1) := by simp [hp]
    have := hkept p.1
    rw [hnil, List.length_nil] at this
    exact absurd (List.length_pos_of_mem hmem) (by omega)
  have hlength : ((t.vertexSet n).flatMap fun v => t.flushed lengths v).length = t.listLength := by
    rw [List.length_flatMap, h.length, ← Lib.sum_length_filter hnodup hsources]
    congr 1
    apply List.map_congr_left
    intro v _
    rw [(flushed_perm lengths v).length_eq, recordsOf, List.length_map, hkept v]
  have hne : ((t.vertexSet n).flatMap fun v => t.flushed lengths v) ≠ [] := by
    intro hnil
    rw [hnil, List.length_nil, h.length] at hlength
    exact hput (List.length_eq_zero_iff.mp hlength.symm)
  unfold save2eSSTable
  exact ⟨_, dif_pos ⟨hkeys, hlength, hne⟩⟩

/-- The flush writes every edge that the table has accepted just when no edge was put to a source
before it was allocated. -/
theorem Held.flushes_iff (h : Held n accepted early t) (hput : accepted ≠ []) (lengths : List Nat)
    (hv : n ≤ invalidVertexId) :
    (∃ f, t.save2eSSTable lengths n hv = some f ∧
      ∀ v, (f.recordsOf v).Perm (acceptedRecords lengths accepted v)) ↔ early = [] := by
  constructor
  · rintro ⟨f, hf, hrecords⟩
    apply List.eq_nil_iff_forall_not_mem.mpr
    intro v hv
    obtain ⟨e, he⟩ := h.put v hv
    have hmem : (v, e) ∈ accepted.filter (·.1 = v) := by simp [he]
    have hlen := (hrecords v).length_eq
    rw [acceptedRecords, List.length_map] at hlen
    have hlt : v < n := by
      apply src_lt_of_save2eSSTable hf
      apply List.ne_nil_of_length_pos
      rw [hlen]
      exact List.length_pos_of_mem hmem
    have hfewer := h.fewer v hv hlt
    have hkept := ((save2eSSTable_spec hf).2 v).length_eq
    rw [recordsOf, List.length_map] at hkept
    omega
  · rintro rfl
    obtain ⟨f, hf⟩ := h.flushes hput lengths hv
    refine ⟨f, hf, fun v => ((save2eSSTable_spec hf).2 v).trans ?_⟩
    have := (h.kept v (by simp)).map (Edge.toRecord lengths v)
    rwa [List.map_map] at this

end MemTable

namespace FlushSources

/-- The store of a shard. `vertexId` is the number of vertices that are allocated. The last two
fields are history, by the id of the table: the edges that were put to it, and the sources that
were not allocated at the time of the put. -/
structure State where
  vertexId : Nat
  vertexId_le : vertexId ≤ invalidVertexId
  store : Store
  accepted : Nat → List (Nat × Edge)
  early : Nat → List Nat

def initial (o : Options) : State where
  vertexId := 0
  vertexId_le := Nat.zero_le _
  store := Store.initial o
  accepted _ := []
  early _ := []

/-- One record of a put. -/
def putRecord (o : Options) (src : Nat) (e : Edge) (s : State) : State :=
  let fid := s.store.active.fid
  { s with
    store := s.store.putRecord o src e
    accepted := Function.update s.accepted fid ((src, e) :: s.accepted fid)
    early :=
      if s.vertexId ≤ src then Function.update s.early fid (src :: s.early fid) else s.early }

/-- What `PutEdge` writes to a shard, with the sequence of the database. There is no test of the
vertices. -/
def putEdge (o : Options) (sequence src dst : Nat) (payload : Bytes) (mode : Store.EdgeInsertMode)
    (isOut : Bool) (edgeType : UInt8) (s : State) : Option State :=
  if src ≤ maxSeqId ∧ dst ≤ maxSeqId ∧ sequence < maxSeqId then
    let marker := decide (payload = Store.deletedPayload)
    let s' := putRecord o src ⟨dst, sequence, marker, payload, isOut, edgeType⟩
      { s with store := { s.store with nextSequence := sequence + 1 } }
    match mode with
    | .kSingle => some s'
    | .kBidirectional =>
      some (putRecord o dst ⟨src, sequence, marker, payload, !isOut, edgeType⟩ s')
  else none

/-- `new_vertex` -/
def newVertex (s : State) : Option State :=
  if h : s.vertexId + 1 ≤ invalidVertexId then
    some { s with
      vertexId := s.vertexId + 1
      vertexId_le := h
      store := s.store.initVertex s.vertexId }
  else none

/-- A flush or a compaction goes on. A flush visits the vertices that are allocated. -/
def background (o : Options) (a : Store.Action) (s : State) : Option State :=
  if GraphDb.Background a then
    (Store.step { o with vertexNum := s.vertexId, vertexNum_le := s.vertexId_le } s.store a).map
      fun store => { s with store }
  else none

inductive Action where
  | newVertex
  | putEdge (sequence src dst : Nat) (payload : Bytes) (mode : Store.EdgeInsertMode) (isOut : Bool)
      (edgeType : UInt8)
  | background (a : Store.Action)

def step (o : Options) (s : State) : Action → Option State
  | .newVertex => newVertex s
  | .putEdge sequence src dst payload mode isOut edgeType =>
    putEdge o sequence src dst payload mode isOut edgeType s
  | .background a => background o a s

variable {o : Options} {s s' : State}

/-! ## What the tables hold -/

structure Inv (s : State) : Prop where
  held : ∀ t ∈ s.store.menTables, t.Held s.vertexId (s.accepted t.fid) (s.early t.fid)
  nodup : (s.store.menTables.map MemTable.fid).Nodup
  lt : ∀ t ∈ s.store.menTables, t.fid < s.store.currentTime
  fresh : ∀ fid, s.store.currentTime ≤ fid → s.accepted fid = [] ∧ s.early fid = []

theorem inv_initial (o : Options) : Inv (initial o) where
  held t ht := by
    rw [List.mem_singleton.mp ht]
    exact MemTable.held_fresh _ _ _
  nodup := by simp [initial, Store.initial, Store.menTables]
  lt t ht := by
    rw [List.mem_singleton.mp ht]
    simp [initial, Store.initial, MemTable.fresh]
  fresh fid _ := ⟨rfl, rfl⟩

theorem inv_putRecord (src : Nat) (e : Edge) (h : Inv s) : Inv (putRecord o src e s) := by
  have hactive : s.store.active ∈ s.store.menTables := by simp [Store.menTables]
  have hother : ∀ t ∈ s.store.immutables, t.fid ≠ s.store.active.fid := by
    have hnd := h.nodup
    rw [Store.menTables, List.map_append, List.nodup_append] at hnd
    exact fun t ht => hnd.2.2 t.fid (List.mem_map_of_mem ht) _ (by simp)
  have hearly : ∀ v, v ∈ (putRecord o src e s).early s.store.active.fid ↔
      v ∈ s.early s.store.active.fid ∨ v = src ∧ s.vertexId ≤ src := by
    intro v
    simp only [putRecord]
    split
    · rename_i hle
      simp [hle, or_comm]
    · rename_i hle
      simp [hle]
  have hearlyOther : ∀ fid, fid ≠ s.store.active.fid →
      (putRecord o src e s).early fid = s.early fid := by
    intro fid hne
    simp only [putRecord]
    split
    · exact Function.update_of_ne hne _ _
    · rfl
  have haccepted : (putRecord o src e s).accepted s.store.active.fid =
      (src, e) :: s.accepted s.store.active.fid := Function.update_self _ _ _
  have hacceptedOther : ∀ fid, fid ≠ s.store.active.fid →
      (putRecord o src e s).accepted fid = s.accepted fid :=
    fun fid hne => Function.update_of_ne hne _ _
  have hold : ∀ t ∈ s.store.immutables ++ [s.store.active.putEdge o.reserveNode src e],
      t.Held s.vertexId ((putRecord o src e s).accepted t.fid) ((putRecord o src e s).early t.fid) ∧
        t.fid < s.store.currentTime := by
    intro t ht
    rcases List.mem_append.mp ht with ht | ht
    · have htm := Store.mem_menTables_of_immutables ht
      rw [hacceptedOther _ (hother t ht), hearlyOther _ (hother t ht)]
      exact ⟨h.held t htm, h.lt t htm⟩
    · rw [List.mem_singleton.mp ht]
      refine ⟨?_, h.lt s.store.active hactive⟩
      have hfid : (s.store.active.putEdge o.reserveNode src e).fid = s.store.active.fid := rfl
      rw [hfid, haccepted]
      exact MemTable.held_putEdge (h.held _ hactive) hearly
  have hfresh : ∀ fid, s.store.currentTime ≤ fid →
      (putRecord o src e s).accepted fid = [] ∧ (putRecord o src e s).early fid = [] := by
    intro fid hle
    have hne : fid ≠ s.store.active.fid := by
      have := h.lt _ hactive
      omega
    rw [hacceptedOther fid hne, hearlyOther fid hne]
    exact h.fresh fid hle
  have hnodup := h.nodup
  rw [← Store.map_fid_putRecord (o := o) src e] at hnodup
  rcases Store.putRecord_tables o src e s.store with ⟨htab, htime⟩ | ⟨htab, htime⟩
  · refine ⟨?_, ?_, ?_, ?_⟩
    · intro t ht
      rw [putRecord, htab] at ht
      exact (hold t ht).1
    · rw [putRecord, htab]
      exact hnodup
    · intro t ht
      rw [putRecord, htab] at ht
      rw [putRecord, htime]
      exact (hold t ht).2
    · intro fid hle
      rw [putRecord, htime] at hle
      exact hfresh fid hle
  · refine ⟨?_, ?_, ?_, ?_⟩
    · intro t ht
      rw [putRecord, htab] at ht
      rcases List.mem_append.mp ht with ht | ht
      · exact (hold t ht).1
      · rw [List.mem_singleton.mp ht]
        obtain ⟨hacc, hear⟩ := hfresh s.store.currentTime (Nat.le_refl _)
        rw [MemTable.fresh, hacc, hear]
        exact MemTable.held_fresh _ _ _
    · rw [putRecord, htab, List.map_append, List.nodup_append]
      refine ⟨hnodup, List.nodup_singleton _, ?_⟩
      intro fid hfid fid' hfid'
      obtain ⟨t, ht, rfl⟩ := List.mem_map.mp hfid
      have hlt := (hold t ht).2
      rw [List.map_singleton, List.mem_singleton] at hfid'
      rw [hfid', MemTable.fresh]
      exact Nat.ne_of_lt hlt
    · intro t ht
      rw [putRecord, htab] at ht
      rw [putRecord, htime]
      rcases List.mem_append.mp ht with ht | ht
      · exact Nat.lt_succ_of_lt (hold t ht).2
      · rw [List.mem_singleton.mp ht]
        exact Nat.lt_succ_self _
    · intro fid hle
      rw [putRecord, htime] at hle
      exact hfresh fid (by omega)

theorem inv_putEdge {sequence src dst : Nat} {payload : Bytes} {mode : Store.EdgeInsertMode}
    {isOut : Bool} {edgeType : UInt8} (h : Inv s)
    (hs : putEdge o sequence src dst payload mode isOut edgeType s = some s') : Inv s' := by
  have hseq : Inv { s with store := { s.store with nextSequence := sequence + 1 } } :=
    ⟨h.held, h.nodup, h.lt, h.fresh⟩
  unfold putEdge at hs
  split at hs
  · cases mode with
    | kSingle =>
      cases hs
      exact inv_putRecord _ _ hseq
    | kBidirectional =>
      cases hs
      exact inv_putRecord _ _ (inv_putRecord _ _ hseq)
  · cases hs

theorem inv_newVertex (h : Inv s) (hs : newVertex s = some s') : Inv s' := by
  unfold newVertex at hs
  split at hs
  · cases hs
    have htab : (s.store.initVertex s.vertexId).menTables =
        s.store.menTables.map (MemTable.initVertexAdjs s.vertexId) := by
      simp [Store.menTables, Store.initVertex]
    refine ⟨?_, ?_, ?_, h.fresh⟩
    · intro t' ht'
      rw [htab] at ht'
      obtain ⟨t, ht, rfl⟩ := List.mem_map.mp ht'
      exact MemTable.held_initVertexAdjs (h.held t ht)
    · rw [htab, List.map_map]
      exact h.nodup
    · intro t' ht'
      rw [htab] at ht'
      obtain ⟨t, ht, rfl⟩ := List.mem_map.mp ht'
      exact h.lt t ht
  · cases hs

/-- A background step sorts lists of tables and takes tables out of the superversion. -/
theorem tables_background {s s' : Store} {a : Store.Action} (ha : GraphDb.Background a)
    (h : Store.step o s a = some s') :
    s.currentTime ≤ s'.currentTime ∧
      (s'.menTables.map MemTable.fid).Sublist (s.menTables.map MemTable.fid) ∧
      ∀ t' ∈ s'.menTables, ∃ t ∈ s.menTables, t' = t ∨ ∃ src, t' = t.sortAdjacency src := by
  cases a with
  | putEdge => cases ha
  | sortAdjacency fid src =>
    have hnew := (Store.tables_sortAdjacency h).1
    have h : Store.sortAdjacency fid src s = some s' := h
    unfold Store.sortAdjacency at h
    split at h
    · cases h
      refine ⟨Nat.le_refl _, ?_, fun t' ht' => ?_⟩
      · simp only [Store.menTables, List.map_append, Store.map_fid_sortAdjacency]
        exact List.Sublist.refl _
      · obtain ⟨t, ht, hsort⟩ := hnew t' ht'
        exact ⟨t, ht, hsort.imp_right fun hsort => ⟨src, hsort.1⟩⟩
    · cases h
  | publish fid =>
    obtain ⟨t, f, -, -, -, rfl⟩ := Store.publish_cases h
    have hsub : (s.immutables.filter (·.fid != fid) ++ [s.active]).Sublist s.menTables :=
      List.filter_sublist.append_right _
    exact ⟨Nat.le_refl _, hsub.map _, fun t' ht' => ⟨t', hsub.mem ht', Or.inl rfl⟩⟩
  | pick | writeEnd | finish =>
    have hsame := Store.sameTables_step h rfl
    rw [hsame.menTables]
    exact ⟨hsame.time, List.Sublist.refl _, fun t ht => ⟨t, ht, Or.inl rfl⟩⟩

theorem inv_background {a : Store.Action} (h : Inv s) (hs : background o a s = some s') :
    Inv s' := by
  unfold background at hs
  split at hs
  · rename_i ha
    obtain ⟨store, hstore, rfl⟩ := Option.map_eq_some_iff.mp hs
    obtain ⟨htime, hsub, htab⟩ := tables_background ha hstore
    refine ⟨?_, h.nodup.sublist hsub, ?_, ?_⟩
    · intro t' ht'
      obtain ⟨t, ht, rfl | ⟨src, rfl⟩⟩ := htab t' ht'
      · exact h.held t' ht
      · rw [MemTable.fid_sortAdjacency]
        exact MemTable.held_sortAdjacency src (h.held t ht)
    · intro t' ht'
      obtain ⟨t, ht, rfl | ⟨src, rfl⟩⟩ := htab t' ht'
      · exact Nat.lt_of_lt_of_le (h.lt t' ht) htime
      · rw [MemTable.fid_sortAdjacency]
        exact Nat.lt_of_lt_of_le (h.lt t ht) htime
    · exact fun fid hle => h.fresh fid (Nat.le_trans htime hle)
  · cases hs

theorem inv_step {a : Action} (h : Inv s) (hs : step o s a = some s') : Inv s' := by
  cases a with
  | newVertex => exact inv_newVertex h hs
  | putEdge => exact inv_putEdge h hs
  | background a => exact inv_background h hs

end FlushSources

end RichGraph
