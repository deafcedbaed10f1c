-- What a scan of several properties returns: the versions that the records of every
-- route have, each once, newest first for a destination, with the values of the routes.
import RichGraph.GraphDb

namespace RichGraph

open Lib

/-! ## The records of one property -/

section

variable {rs : List SinglePropertyRecord}

theorem EdgeVersionKey.le_antisymm {a b : EdgeVersionKey} (hab : a.le b)
    (hba : b.le a) : a = b := by
  obtain ⟨dst, seq⟩ := a
  obtain ⟨dst', seq'⟩ := b
  unfold EdgeVersionKey.le at hab hba
  simp only [EdgeVersionKey.mk.injEq]
  dsimp only at hab hba
  omega

/-- The sort keeps the order of the records of one version. -/
theorem filter_insertionSort (k : EdgeVersionKey) :
    (rs.insertionSort SinglePropertyRecord.le).filter (·.key = k) = rs.filter (·.key = k) := by
  have hequal : (rs.filter (·.key = k)).Pairwise SinglePropertyRecord.le := by
    refine List.pairwise_of_forall_mem_list fun a ha b hb => ?_
    have hak : a.key = k := by simpa using (List.mem_filter.mp ha).2
    have hbk : b.key = k := by simpa using (List.mem_filter.mp hb).2
    unfold SinglePropertyRecord.le
    rw [hak, hbk]
    exact Or.inr ⟨rfl, Nat.le_refl _⟩
  have hsub := (List.sublist_insertionSort hequal List.filter_sublist).filter (·.key = k)
  rw [List.filter_filter] at hsub
  simp only [Bool.and_self] at hsub
  exact (hsub.eq_of_length
    ((List.perm_insertionSort SinglePropertyRecord.le rs).filter _).length_eq.symm).symm

theorem lastOfRuns_sublist : (lastOfRuns rs).Sublist rs := by
  fun_induction lastOfRuns rs with
  | case1 => exact List.Sublist.refl _
  | case2 r => exact List.Sublist.refl _
  | case3 r r' rs heq ih => exact ih.cons _
  | case4 r r' rs hne ih => exact ih.cons_cons _

/-- Where a run ends, the version does not come again. -/
theorem key_ne_of_run_end {r r' : SinglePropertyRecord}
    (h : (r :: r' :: rs).Pairwise SinglePropertyRecord.le) (hne : r'.key ≠ r.key)
    {x : SinglePropertyRecord} (hx : x ∈ r' :: rs) : x.key ≠ r.key := by
  obtain ⟨hr, hrest⟩ := List.pairwise_cons.mp h
  intro hkey
  rcases List.mem_cons.mp hx with rfl | hx
  · exact hne hkey
  · have hle : r'.key.le r.key := hkey ▸ (List.pairwise_cons.mp hrest).1 x hx
    exact hne (EdgeVersionKey.le_antisymm hle (hr r' List.mem_cons_self))

/-- A record is kept when it is the last one of its version. -/
theorem mem_lastOfRuns (h : rs.Pairwise SinglePropertyRecord.le) (x : SinglePropertyRecord) :
    x ∈ lastOfRuns rs ↔ (rs.filter (·.key = x.key)).getLast? = some x := by
  fun_induction lastOfRuns rs with
  | case1 => simp
  | case2 r =>
    by_cases hkey : r.key = x.key
    · simp [hkey, eq_comm]
    · have hne : x ≠ r := fun hc => hkey (by rw [hc])
      simp [hkey, hne]
  | case3 r r' rs heq ih =>
    rw [ih (List.pairwise_cons.mp h).2]
    by_cases hkey : r.key = x.key
    · have hkey' : r'.key = x.key := heq.trans hkey
      simp [hkey, hkey']
    · have hskip : (r :: r' :: rs).filter (·.key = x.key) = (r' :: rs).filter (·.key = x.key) :=
        List.filter_cons_of_neg (by simpa using hkey)
      rw [hskip]
  | case4 r r' rs hne ih =>
    have hother := fun y hy => key_ne_of_run_end h hne (x := y) hy
    rw [List.mem_cons, ih (List.pairwise_cons.mp h).2]
    by_cases hkey : r.key = x.key
    · have hnone : (r' :: rs).filter (·.key = x.key) = [] := by
        rw [List.filter_eq_nil_iff]
        intro y hy
        simpa [← hkey] using hother y hy
      have htake : (r :: r' :: rs).filter (·.key = x.key) =
          r :: (r' :: rs).filter (·.key = x.key) :=
        List.filter_cons_of_pos (by simpa using hkey)
      rw [htake, hnone]
      simp [eq_comm]
    · have hskip : (r :: r' :: rs).filter (·.key = x.key) = (r' :: rs).filter (·.key = x.key) :=
        List.filter_cons_of_neg (by simpa using hkey)
      have hxr : x ≠ r := fun hc => hkey (by rw [hc])
      rw [hskip, or_iff_right hxr]

theorem nodup_lastOfRuns (h : rs.Pairwise SinglePropertyRecord.le) :
    ((lastOfRuns rs).map SinglePropertyRecord.key).Nodup := by
  fun_induction lastOfRuns rs with
  | case1 => exact List.nodup_nil
  | case2 r => exact List.nodup_singleton _
  | case3 r r' rs heq ih => exact ih (List.pairwise_cons.mp h).2
  | case4 r r' rs hne ih =>
    rw [List.map_cons, List.nodup_cons]
    refine ⟨fun hmem => ?_, ih (List.pairwise_cons.mp h).2⟩
    obtain ⟨x, hx, hkey⟩ := List.mem_map.mp hmem
    exact key_ne_of_run_end h hne (lastOfRuns_sublist.mem hx) hkey

/-- What a scan keeps of a version is what the column of the property has for it last. -/
theorem mem_lastOfVersions (x : SinglePropertyRecord) :
    x ∈ lastOfVersions rs ↔
      Rows.lastOf (rs.map fun y => (y.key, y.value)) x.key = some x.value := by
  rw [lastOfVersions, mem_lastOfRuns (List.pairwise_insertionSort _ _), filter_insertionSort]
  have hfilter : (rs.map fun y => (y.key, y.value)).filter (·.1 = x.key) =
      (rs.filter (·.key = x.key)).map fun y => (y.key, y.value) := List.filter_map
  rw [Rows.lastOf, hfilter, List.getLast?_map, Option.map_map, Option.map_eq_some_iff]
  constructor
  · exact fun hlast => ⟨x, hlast, rfl⟩
  · rintro ⟨y, hlast, hvalue⟩
    have hkey : y.key = x.key := by
      simpa using (List.mem_filter.mp (List.mem_of_getLast? hlast)).2
    obtain rfl : y = x := by
      cases x
      cases y
      simp_all
    exact hlast

end

def GraphDbEdgeScanRecord.version (rec : GraphDbEdgeScanRecord) : EdgeVersionKey :=
  ⟨rec.dst, rec.sequence⟩

namespace GraphDb

open GraphDbEdgeScanRecord (version)

variable {recordsOf : PropertyRoute → List SinglePropertyRecord}

/-! ## The join -/

/-- The column that a route gives to a scan. -/
def columnOf (recordsOf : PropertyRoute → List SinglePropertyRecord) (r : PropertyRoute) :
    List (EdgeVersionKey × Bytes) :=
  (recordsOf r).map fun x => (x.key, x.value)

/-- What a scan of the routes returns. -/
structure Intersects (recordsOf : PropertyRoute → List SinglePropertyRecord)
    (routes : List (String × PropertyRoute)) (records : List GraphDbEdgeScanRecord) : Prop where
  sorted : (records.map version).Pairwise EdgeVersionKey.le
  once : (records.map version).Nodup
  versions : ∀ key, key ∈ records.map version ↔
    ∀ p ∈ routes, ∃ value, Rows.lastOf (columnOf recordsOf p.2) key = some value
  values : ∀ rec ∈ records, ∀ name value, (name, value) ∈ rec.properties ↔
    ∃ r, (name, r) ∈ routes ∧ Rows.lastOf (columnOf recordsOf r) rec.version = some value

theorem intersects_one (p : String × PropertyRoute) :
    Intersects recordsOf [p]
      ((lastOfVersions (recordsOf p.2)).map (SinglePropertyRecord.toScanRecord p.1)) := by
  have hversions : ((lastOfVersions (recordsOf p.2)).map
      (SinglePropertyRecord.toScanRecord p.1)).map version =
        (lastOfVersions (recordsOf p.2)).map SinglePropertyRecord.key := List.map_map
  have hsorted := List.pairwise_insertionSort SinglePropertyRecord.le (recordsOf p.2)
  refine ⟨?_, ?_, fun key => ?_, fun rec hrec name value => ?_⟩
  · rw [hversions, List.pairwise_map]
    exact hsorted.sublist lastOfRuns_sublist
  · rw [hversions]
    exact nodup_lastOfRuns hsorted
  · rw [hversions]
    constructor
    · intro hkey q hq
      obtain ⟨x, hx, rfl⟩ := List.mem_map.mp hkey
      rw [List.mem_singleton.mp hq]
      exact ⟨x.value, (mem_lastOfVersions x).mp hx⟩
    · intro h
      obtain ⟨value, hlast⟩ := h p List.mem_cons_self
      exact List.mem_map.mpr ⟨⟨key, value⟩, (mem_lastOfVersions _).mpr hlast, rfl⟩
  · obtain ⟨x, hx, rfl⟩ := List.mem_map.mp hrec
    have hlast := (mem_lastOfVersions x).mp hx
    constructor
    · intro hmem
      cases List.mem_singleton.mp hmem
      exact ⟨p.2, List.mem_cons_self, hlast⟩
    · rintro ⟨r, hr, hlast'⟩
      obtain rfl := List.mem_singleton.mp hr
      cases hlast.symm.trans hlast'
      exact List.mem_cons_self

theorem intersects_joined {routes : List (String × PropertyRoute)} (hne : routes ≠ [])
    (hnames : (routes.map Prod.fst).Nodup) :
    Intersects recordsOf routes (scanEdgesJoined recordsOf routes) := by
  let columns := routes.map fun p => (p.1, columnOf recordsOf p.2)
  have hmem : ∀ m column, (m, column) ∈ columns ↔
      ∃ r, (m, r) ∈ routes ∧ columnOf recordsOf r = column := by
    intro m column
    simp [columns]
  have hcolumns : columns ≠ [] := by simpa [columns] using hne
  have hcnames : (columns.map Prod.fst).Nodup := by
    rw [List.map_map]
    exact hnames
  have hlen : columns.length = routes.length := List.length_map ..
  have hfull := Rows.mem_full_join hcolumns hcnames
  rw [hlen] at hfull
  have hperm := List.perm_insertionSort EdgeVersionKey.le ((Rows.join columns).full routes.length)
  have hrecords : scanEdgesJoined recordsOf routes =
      (((Rows.join columns).full routes.length).insertionSort EdgeVersionKey.le).map fun key =>
        ⟨key.dst, key.seq, (((Rows.join columns).lookup key).getD ∅).entries.map
          fun e => (e.1, e.2)⟩ := rfl
  have hversions : (scanEdgesJoined recordsOf routes).map version =
      ((Rows.join columns).full routes.length).insertionSort EdgeVersionKey.le := by
    rw [hrecords, List.map_map]
    exact List.map_id' _
  refine ⟨?_, ?_, fun key => ?_, fun rec hrec name value => ?_⟩
  · rw [hversions]
    exact List.pairwise_insertionSort _ _
  · rw [hversions]
    exact hperm.nodup_iff.mpr (Rows.full_nodup _ _)
  · rw [hversions, hperm.mem_iff, hfull]
    exact List.forall_mem_map
  · rw [hrecords] at hrec
    obtain ⟨key, hkey, rfl⟩ := List.mem_map.mp hrec
    obtain ⟨row, hrow, -⟩ := Rows.mem_full.mp (hperm.mem_iff.mp hkey)
    have hvalue := Rows.value_join hcnames key name value
    rw [Rows.value, hrow, Option.bind_some, ← Option.mem_def, AList.mem_lookup_iff] at hvalue
    have hentry : (name, value) ∈ row.entries.map (fun e => (e.1, e.2)) ↔
        (⟨name, value⟩ : Sigma fun _ : String => Bytes) ∈ row.entries := by
      simp
    simp only [hrow, Option.getD_some, hentry, hvalue, hmem]
    constructor
    · rintro ⟨column, ⟨r, hr, rfl⟩, hlast⟩
      exact ⟨r, hr, hlast⟩
    · rintro ⟨r, hr, hlast⟩
      exact ⟨_, ⟨r, hr, rfl⟩, hlast⟩

theorem intersects_scanRoutes {routes : List (String × PropertyRoute)} (hne : routes ≠ [])
    (hnames : (routes.map Prod.fst).Nodup) :
    Intersects recordsOf routes (scanRoutes recordsOf routes) := by
  unfold scanRoutes
  split
  · exact intersects_one _
  · exact intersects_joined hne hnames

end GraphDb

end RichGraph
