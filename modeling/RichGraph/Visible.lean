-- What a scan of a vertex sees. The deepest level at which a vertex has been
-- limits the scan, and the watermark of the vertex hides files of level 0. The
-- first never leaves out a record.
import RichGraph.Contents

namespace RichGraph

open Compaction

namespace Store

variable {o : Options} {s s' : Store} {v : Nat}

/-! ## Scans and the deepest level -/

/-- The files of level 0 that a scan of the vertex and `LocateEdge` look at. -/
def shown0 (s : Store) (v : Nat) : List SSTable :=
  s.level0.filter fun f => (s.index v).minLevel0Fid ≤ f.timeStamp

/-- The records of a vertex in all places that are not hidden. -/
def visible (o : Options) (s : Store) (v : Nat) : List EdgeRecord :=
  s.menTables.flatMap (MemTable.recordsOf o.propertyLengths v) ++
    ((s.shown0 v).flatMap (·.recordsOf v) ++ (List.range levelIndexSize).flatMap (s.sliceAt v))

/-- `vertexMaxLevel` is at least as deep as the places that have the vertex. -/
structure LevelsReached (s : Store) : Prop where
  le_max : ∀ v, s.vertexMaxLevel v ≤ maxLevel
  tables : ∀ t ∈ s.menTables, ∀ v, (t.vertexAdjs.lookup v).isSome → 0 ≤ s.vertexMaxLevel v
  level0 : ∀ f ∈ s.level0, ∀ v, f.Has v → 1 ≤ s.vertexMaxLevel v
  slots : ∀ v l, ((s.index v).levels l).fileID ≠ invalidFileId → (l : Int) + 2 ≤ s.vertexMaxLevel v
  job : ∀ j, s.job = some j → j.level < levelIndexSize

theorem LevelsReached.le_of_sliceAt (h : LevelsReached s) {l : Nat} (hne : s.sliceAt v l ≠ []) :
    (l : Int) + 2 ≤ s.vertexMaxLevel v :=
  h.slots v l fun hnone => hne (if_pos hnone)

theorem recordsOf_eq_nil_of_lookup {lengths : List Nat} {t : MemTable}
    (h : ¬ (t.vertexAdjs.lookup v).isSome) : t.recordsOf lengths v = [] := by
  unfold MemTable.recordsOf
  rw [MemTable.adj_eq_empty_of_lookup (by simpa using h)]
  rfl

/-- What a scan reads of a file. -/
theorem offsets_slice (f : SSTable) :
    ((f.offsets v).map fun p => f.slice p.1 p.2).getD [] = f.recordsOf v := by
  cases h : f.offsets v with
  | none =>
    have hnot : ¬ f.Has v := by
      intro hv
      obtain ⟨p, hp⟩ := hv.offsets
      rw [h] at hp
      cases hp
    rw [SSTable.recordsOf_eq_nil hnot]
    rfl
  | some p => simp [SSTable.slice_of_offsets h]

theorem flatMap_range_of_nil {g : Nat → List EdgeRecord} {m n : Nat} (hmn : m ≤ n)
    (h : ∀ l < n, m ≤ l → g l = []) : (List.range n).flatMap g = (List.range m).flatMap g := by
  obtain ⟨d, rfl⟩ := Nat.exists_eq_add_of_le hmn
  rw [List.range_add, List.flatMap_append]
  have hnil : ((List.range d).map fun x => m + x).flatMap g = [] := by
    rw [List.flatMap_eq_nil_iff]
    intro l hl
    obtain ⟨x, hx, rfl⟩ := List.mem_map.mp hl
    have := List.mem_range.mp hx
    exact h _ (by omega) (by omega)
  rw [hnil, List.append_nil]

/-- The records that the range test of a file leaves out are not of the vertex. -/
theorem flatMap_range_test (files : List SSTable) :
    (files.filter fun f => (s.index v).minLevel0Fid ≤ f.timeStamp ∧ v ≤ f.maxKey ∧
        f.minKey ≤ v).flatMap (·.recordsOf v) =
      (files.filter fun f => (s.index v).minLevel0Fid ≤ f.timeStamp).flatMap (·.recordsOf v) := by
  induction files with
  | nil => rfl
  | cons f files ih =>
    by_cases hshow : (s.index v).minLevel0Fid ≤ f.timeStamp
    · by_cases hrange : v ≤ f.maxKey ∧ f.minKey ≤ v
      · rw [List.filter_cons_of_pos (by simp [hshow, hrange]),
          List.filter_cons_of_pos (by simp [hshow]), List.flatMap_cons, List.flatMap_cons, ih]
      · have hnot : ¬ f.Has v := by
          rintro ⟨r, hr, hrv⟩
          have := SSTable.minKey_le hr
          have := SSTable.le_maxKey hr
          omega
        rw [List.filter_cons_of_neg (by simpa using fun _ h1 h2 => hrange ⟨h1, h2⟩), ih,
          List.filter_cons_of_pos (by simp [hshow]), List.flatMap_cons,
          SSTable.recordsOf_eq_nil hnot, List.nil_append]
    · rw [List.filter_cons_of_neg (by simp [hshow]), List.filter_cons_of_neg (by simp [hshow]), ih]

theorem scanSources_eq (o : Options) (s : Store) (v : Nat) :
    s.scanSources o v = if s.vertexMaxLevel v < 0 then [] else
      s.menTables.map (MemTable.recordsOf o.propertyLengths v) ++
      (if 1 ≤ s.vertexMaxLevel v then
        (s.level0.filter fun f => (s.index v).minLevel0Fid ≤ f.timeStamp ∧
          v ≤ f.maxKey ∧ f.minKey ≤ v).map (·.recordsOf v)
      else []) ++
      (if 2 ≤ s.vertexMaxLevel v then
        (List.range (s.vertexMaxLevel v - 1).toNat).map (s.sliceAt v)
      else []) := by
  have hfile : ∀ (fid : Nat) (rs : List EdgeRecord),
      (rs.map (Found.inFile fid)).map (Found.record o.propertyLengths v) = rs := by
    intro fid rs
    rw [List.map_map]
    exact List.map_id _
  have htable : ∀ t : MemTable, ((t.adj v).edges.map (Found.inMemtable t.fid)).map
      (Found.record o.propertyLengths v) = t.recordsOf o.propertyLengths v := by
    intro t
    rw [List.map_map]
    rfl
  unfold scanSources scanFound
  split
  · rfl
  · simp only [List.map_append, List.map_map, Function.comp_def, htable, offsets_slice]
    split <;> split <;> simp only [List.map_map, Function.comp_def, hfile, List.map_nil]

/-- A scan sees all the records of the vertex that are not hidden. -/
theorem scanSources_flatten (h : LevelsReached s) :
    (s.scanSources o v).flatten = s.visible o v := by
  have hslots : s.vertexMaxLevel v < 2 →
      (List.range levelIndexSize).flatMap (s.sliceAt v) = [] := by
    intro hlt
    rw [List.flatMap_eq_nil_iff]
    intro l hl
    by_contra hne
    have := h.le_of_sliceAt hne
    omega
  have hlevel0 : s.vertexMaxLevel v < 1 → (s.shown0 v).flatMap (·.recordsOf v) = [] := by
    intro hlt
    apply flatMap_recordsOf_eq_nil
    intro f hf hv
    have := h.level0 f (List.mem_of_mem_filter hf) v hv
    omega
  have htables : s.vertexMaxLevel v < 0 →
      s.menTables.flatMap (MemTable.recordsOf o.propertyLengths v) = [] := by
    intro hlt
    rw [List.flatMap_eq_nil_iff]
    intro t ht
    apply recordsOf_eq_nil_of_lookup
    intro hv
    have := h.tables t ht v hv
    omega
  rw [scanSources_eq]
  unfold visible
  by_cases h0 : s.vertexMaxLevel v < 0
  · rw [if_pos h0, htables h0, hlevel0 (by omega), hslots (by omega)]
    rfl
  rw [if_neg h0]
  by_cases h1 : 1 ≤ s.vertexMaxLevel v
  · rw [if_pos h1]
    by_cases h2 : 2 ≤ s.vertexMaxLevel v
    · rw [if_pos h2]
      have hle := h.le_max v
      rw [flatMap_range_of_nil (m := (s.vertexMaxLevel v - 1).toNat)]
      · simp only [List.flatten_append, ← List.flatMap_def, flatMap_range_test, shown0,
          List.append_assoc]
      · simp only [levelIndexSize, maxLevel] at hle ⊢
        omega
      · intro l hl hml
        by_contra hne
        have := h.le_of_sliceAt hne
        omega
    · rw [if_neg h2, hslots (by omega)]
      simp only [List.flatten_append, ← List.flatMap_def, flatMap_range_test, shown0,
        List.append_assoc, List.flatten_nil]
  · rw [if_neg h1, if_neg (by omega), hlevel0 (by omega), hslots (by omega)]
    simp only [List.append_nil, ← List.flatMap_def]

/-! ## The deepest level through the steps -/

theorem levelsReached_of_index (h : LevelsReached s)
    (hmono : ∀ v, s.vertexMaxLevel v ≤ s'.vertexMaxLevel v)
    (hle : ∀ v, s'.vertexMaxLevel v ≤ maxLevel)
    (htab : ∀ t ∈ s'.menTables, ∀ v, (t.vertexAdjs.lookup v).isSome → 0 ≤ s'.vertexMaxLevel v)
    (h0 : s'.level0 = s.level0) (hindex : s'.index = s.index) (hj : s'.job = s.job) :
    LevelsReached s' where
  le_max := hle
  tables := htab
  level0 f hf v hv := (h.level0 f (h0 ▸ hf) v hv).trans (hmono v)
  slots v l hne := (h.slots v l (hindex ▸ hne)).trans (hmono v)
  job j hjob := h.job j (hj ▸ hjob)

theorem putRecord_vertexMaxLevel (o : Options) (src : Nat) (e : Edge) (s : Store) (v : Nat) :
    (putRecord o src e s).vertexMaxLevel v =
      if v = src ∧ (s.active.vertexAdjs.lookup src).isNone then max (s.vertexMaxLevel v) 0
      else s.vertexMaxLevel v := by
  unfold putRecord
  dsimp only
  split <;> rfl

theorem levelsReached_putRecord {src : Nat} {e : Edge} (h : LevelsReached s) :
    LevelsReached (putRecord o src e s) := by
  have hmono : ∀ v, s.vertexMaxLevel v ≤ (putRecord o src e s).vertexMaxLevel v := by
    intro v
    rw [putRecord_vertexMaxLevel]
    split
    · exact Int.le_max_left _ _
    · exact Int.le_refl _
  refine levelsReached_of_index h hmono ?_ ?_ (by simp) (by simp) (by simp)
  · intro v
    have := h.le_max v
    rw [putRecord_vertexMaxLevel]
    simp only [maxLevel] at *
    split <;> omega
  · intro t htm v hv
    rcases mem_menTables_putRecord htm with htm | rfl | rfl
    · exact (h.tables t (mem_menTables_of_immutables htm) v hv).trans (hmono v)
    · have hactive := h.tables s.active (List.mem_append_right _ List.mem_cons_self)
      by_cases hold : (s.active.vertexAdjs.lookup v).isSome
      · exact (hactive v hold).trans (hmono v)
      · -- The first edge of a source in the table.
        have hsrc : v = src := by
          by_contra hne
          simp only [MemTable.putEdge, AList.lookup_insert_ne hne] at hv
          exact hold hv
        subst hsrc
        rw [putRecord_vertexMaxLevel, if_pos ⟨rfl, by simpa using hold⟩]
        exact Int.le_max_right _ _
    · simp [MemTable.fresh] at hv

theorem levelsReached_sortAdjacency {fid src : Nat} (h : LevelsReached s)
    (hs : sortAdjacency fid src s = some s') : LevelsReached s' := by
  obtain ⟨hnew, -⟩ := tables_sortAdjacency hs
  unfold sortAdjacency at hs
  split at hs
  · cases hs
    have hmono : ∀ v, s.vertexMaxLevel v ≤
        if v = src then max (s.vertexMaxLevel v) 1 else s.vertexMaxLevel v := by
      intro v
      split <;> omega
    refine levelsReached_of_index h hmono ?_ ?_ rfl rfl rfl
    · intro v
      have := h.le_max v
      simp only [maxLevel] at *
      split <;> omega
    · intro t' ht' v hv
      obtain ⟨t, htm, rfl | ⟨rfl, -⟩⟩ := hnew t' ht'
      · exact (h.tables t' htm v hv).trans (hmono v)
      · exact (h.tables t htm v (MemTable.isSome_lookup_sortAdjacency hv)).trans (hmono v)
  · cases hs

theorem levelsReached_publish {fid : Nat} (h : LevelsReached s)
    (hs : publish o fid s = some s') : LevelsReached s' := by
  obtain ⟨t, f, -, -, -, rfl⟩ := publish_cases hs
  have hmono : ∀ v, s.vertexMaxLevel v ≤ if f.records.any (·.src == v) = true then
      max (s.vertexMaxLevel v) 1 else s.vertexMaxLevel v := by
    intro v
    split <;> omega
  refine ⟨?_, ?_, ?_, fun v l hne => (h.slots v l hne).trans (hmono v), h.job⟩
  · intro v
    have := h.le_max v
    simp only [maxLevel] at *
    split <;> omega
  · intro t' ht' v hv
    refine (h.tables t' ?_ v hv).trans (hmono v)
    rcases List.mem_append.mp ht' with ht' | ht'
    · exact mem_menTables_of_immutables (List.mem_of_mem_filter ht')
    · exact List.mem_append_right _ ht'
  · intro g hg v hv
    rcases List.mem_orderedInsert _ |>.mp hg with rfl | hg
    · have : g.records.any (·.src == v) = true := by simpa [SSTable.Has] using hv
      simp only [this, if_true]
      exact Int.le_max_right _ _
    · exact (h.level0 g hg v hv).trans (hmono v)

theorem levelsReached_moved {inputs0 : List SSTable} {level : Nat} (hl : level < levelIndexSize)
    (h : LevelsReached s) : LevelsReached (directAdjustLevel level inputs0 s) := by
  have hlevel : ∀ v, (directAdjustLevel level inputs0 s).vertexMaxLevel v =
      if (inputs0.any fun f => f.records.any (·.src == v)) = true then
        max (s.vertexMaxLevel v) (level + 2) else s.vertexMaxLevel v := fun _ => rfl
  have hmono : ∀ v, s.vertexMaxLevel v ≤ (directAdjustLevel level inputs0 s).vertexMaxLevel v := by
    intro v
    rw [hlevel]
    split <;> omega
  refine ⟨?_, fun t ht v hv => (h.tables t ht v hv).trans (hmono v),
    fun f hf v hv => (h.level0 f hf v hv).trans (hmono v), ?_, h.job⟩
  · intro v
    have := h.le_max v
    rw [hlevel]
    simp only [levelIndexSize, maxLevel] at *
    split <;> omega
  · intro v l hne
    by_cases hmoved : ∃ f ∈ inputs0, f.Has v
    · rw [index_moved_of_has hmoved] at hne
      unfold MulLevelIndex.moveDown at hne
      dsimp only at hne
      split at hne
      · rw [hlevel, if_pos (moved_iff.mpr hmoved)]
        omega
      · split at hne
        · exact absurd rfl hne
        · exact (h.slots v l hne).trans (hmono v)
    · rw [index_moved_of_not hmoved] at hne
      exact (h.slots v l hne).trans (hmono v)

theorem levelsReached_pick {level : Nat} (h : LevelsReached s) (hs : pick o level s = some s') :
    LevelsReached s' := by
  obtain ⟨-, hl, -, sel, -, -, ⟨-, -, rfl⟩ | ⟨hm, rfl⟩⟩ := pick_cases hs
  · exact levelsReached_moved hl ⟨h.le_max, h.tables, h.level0, h.slots, h.job⟩
  · refine ⟨h.le_max, h.tables, h.level0, h.slots, fun j hj => ?_⟩
    cases hj
    exact hl

theorem levelsReached_installed {j : Job} {hr : j.rest ≠ []} (hj : s.job = some j)
    (h : LevelsReached s) : LevelsReached (installed o j hr s) := by
  have hlt := h.job j hj
  have hlevel : ∀ v, (installed o j hr s).vertexMaxLevel v =
      ((j.outputFile o hr).offsets v).elim (s.vertexMaxLevel v)
        fun _ => max (s.vertexMaxLevel v) (j.level + 2) := by
    intro v
    unfold installed
    dsimp only
    cases (j.outputFile o hr).offsets v <;> rfl
  have hmono : ∀ v, s.vertexMaxLevel v ≤ (installed o j hr s).vertexMaxLevel v := by
    intro v
    rw [hlevel]
    cases (j.outputFile o hr).offsets v with
    | none => exact Int.le_refl _
    | some p => exact Int.le_max_left _ _
  refine ⟨?_, fun t ht v hv => (h.tables t ht v hv).trans (hmono v),
    fun f hf v hv => (h.level0 f hf v hv).trans (hmono v), ?_, ?_⟩
  · intro v
    have := h.le_max v
    rw [hlevel]
    simp only [levelIndexSize, maxLevel] at *
    cases (j.outputFile o hr).offsets v with
    | none => exact this
    | some p => exact Int.max_le.mpr ⟨this, by omega⟩
  · intro v l hne
    by_cases hv : (j.outputFile o hr).Has v
    · obtain ⟨p, hp, hindex⟩ := index_installed_of_has (s := s) hv
      rw [hindex] at hne
      unfold MulLevelIndex.install at hne
      dsimp only at hne
      split at hne
      · rename_i hl
        rw [hlevel, hp, hl]
        exact Int.le_max_right _ _
      · split at hne
        · exact absurd rfl hne
        · exact (h.slots v l hne).trans (hmono v)
    · rw [index_installed_of_not hv] at hne
      exact (h.slots v l hne).trans (hmono v)
  · intro j' hj'
    cases hj'
    exact hlt

theorem levelsReached_finish (h : LevelsReached s) (hs : finish s = some s') :
    LevelsReached s' := by
  obtain ⟨j, -, -, rfl⟩ := finish_cases hs
  exact ⟨h.le_max, h.tables, fun f hf v hv => h.level0 f ((level0_finished j s).mem hf) v hv,
    h.slots, fun _ hj => by cases hj⟩

theorem levelsReached_step {a : Action} (h : LevelsReached s) (hs : step o s a = some s') :
    LevelsReached s' := by
  cases a with
  | putEdge src dst payload mode isOut edgeType =>
    have h₁ : LevelsReached { s with nextSequence := s.nextSequence + 1 } :=
      ⟨h.le_max, h.tables, h.level0, h.slots, h.job⟩
    obtain ⟨e, -, -, -, -, -, -, rfl | ⟨e', -, -, -, -, -, -, -, rfl⟩⟩ := putEdge_cases hs
    · exact levelsReached_putRecord h₁
    · exact levelsReached_putRecord (levelsReached_putRecord h₁)
  | sortAdjacency fid src => exact levelsReached_sortAdjacency h hs
  | publish fid => exact levelsReached_publish h hs
  | pick level => exact levelsReached_pick h hs
  | writeEnd =>
    obtain ⟨j, hj, -, ⟨-, rfl⟩ | ⟨-, hr, rfl⟩⟩ := writeEnd_cases hs
    · refine ⟨h.le_max, h.tables, h.level0, h.slots, fun j' hj' => ?_⟩
      cases hj'
      exact h.job j hj
    · exact levelsReached_installed hj h
  | finish => exact levelsReached_finish h hs

theorem levelsReached_initial (o : Options) : LevelsReached (initial o) := by
  refine ⟨?_, ?_, ?_, ?_, ?_⟩
  · simp [initial, maxLevel]
  · simp [initial, menTables, MemTable.fresh]
  · simp [initial]
  · simp [initial, MulLevelIndex.empty]
  · simp [initial]

theorem levelsReached_of_reach {ok : Store → Action → Prop}
    (h : Lib.Reach (step o) ok (initial o) s) : LevelsReached s :=
  h.invariant (levelsReached_initial o) fun _ _ _ hinv _ hs => levelsReached_step hinv hs

end Store

end RichGraph
