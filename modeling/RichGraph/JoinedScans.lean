-- A scan of several properties is the intersection of the scans of each of them, and
-- `ForEachEdge` calls back for the records of a scan. Nothing is assumed about what the
-- iterators of the shards yield, so a shard may be in CSR mode or not.
import RichGraph.ShardPuts

namespace RichGraph

open Lib

namespace GraphDb

variable {schema : Schema} {recordsOf : PropertyRoute → List SinglePropertyRecord}

/-- `GraphDb::ForEachEdge`, given what the iterators of the shards yield for each route. -/
def forEachEdgeOver {σ : Type} (recordsOf : PropertyRoute → List SinglePropertyRecord)
    (schema : Schema) (name : String) (callback : σ → SinglePropertyRecord → σ × Bool) (st : σ) :
    Except Status σ :=
  match schema.resolveEdgePropertyRoutes [name] with
  | none => .error .kInvalidArgument
  | some [] => .ok st
  | some ((_, r) :: _) => .ok (callUntil callback st (lastOfVersions (recordsOf r)))

/-! ## Routes of a list of names -/

theorem resolve_one {name : String} {routes : List (String × PropertyRoute)}
    (h : schema.resolveEdgePropertyRoutes [name] = some routes) :
    name ≠ "" ∧ ∃ r, schema.route name = some r ∧ routes = [(name, r)] := by
  unfold Schema.resolveEdgePropertyRoutes Schema.resolve at h
  split at h
  · simp [Schema.resolve] at h
  · rename_i hname
    rw [not_or] at hname
    refine ⟨hname.1, ?_⟩
    cases hroute : schema.route name with
    | none => simp [hroute] at h
    | some r =>
      refine ⟨r, rfl, ?_⟩
      simpa [hroute, Schema.resolve, eq_comm] using h

theorem scanEdgesOver_one {name : String} {records : List GraphDbEdgeScanRecord}
    (h : scanEdgesOver recordsOf schema [name] = .ok records) :
    name ≠ "" ∧ ∃ r, schema.route name = some r ∧
      records = scanRoutes recordsOf [(name, r)] := by
  unfold scanEdgesOver at h
  cases hroutes : schema.resolveEdgePropertyRoutes [name] with
  | none => simp [hroutes] at h
  | some routes =>
    obtain ⟨hname, r, hroute, rfl⟩ := resolve_one hroutes
    rw [hroutes] at h
    cases h
    exact ⟨hname, r, hroute, rfl⟩

/-- Names that have routes are all resolved. -/
theorem exists_resolve (seen : List String) {names : List String}
    (h : ∀ name ∈ names, name ≠ "" ∧ ∃ r, schema.route name = some r) :
    ∃ routes, schema.resolve seen names = some routes ∧
      (∀ name ∈ names, name ∈ seen ∨ name ∈ routes.map Prod.fst) ∧
      ∀ p ∈ routes, p.1 ∈ names := by
  induction names generalizing seen with
  | nil => exact ⟨[], rfl, by simp, by simp⟩
  | cons name names ih =>
    obtain ⟨hname, r, hroute⟩ := h name List.mem_cons_self
    have hrest := fun n hn => h n (List.mem_cons_of_mem _ hn)
    unfold Schema.resolve
    split
    · rename_i hseen
      obtain ⟨routes, hroutes, hmem, hsub⟩ := ih seen hrest
      refine ⟨routes, hroutes, fun n hn => ?_, fun p hp => List.mem_cons_of_mem _ (hsub p hp)⟩
      rcases List.mem_cons.mp hn with rfl | hn
      · exact Or.inl (hseen.resolve_left hname)
      · exact hmem n hn
    · obtain ⟨routes, hroutes, hmem, hsub⟩ := ih (name :: seen) hrest
      refine ⟨(name, r) :: routes, by rw [hroute, hroutes]; rfl, fun n hn => ?_, fun p hp => ?_⟩
      · rcases List.mem_cons.mp hn with rfl | hn
        · exact Or.inr List.mem_cons_self
        · rcases hmem n hn with hn | hn
          · rcases List.mem_cons.mp hn with rfl | hn
            · exact Or.inr List.mem_cons_self
            · exact Or.inl hn
          · exact Or.inr (List.mem_cons_of_mem _ hn)
      · rcases List.mem_cons.mp hp with rfl | hp
        · exact List.mem_cons_self
        · exact List.mem_cons_of_mem _ (hsub p hp)

/-! ## The scan -/

theorem mem_scanRoutes_one {p : String × PropertyRoute} {rec : GraphDbEdgeScanRecord} :
    rec ∈ scanRoutes recordsOf [p] ↔ ∃ value,
      Rows.lastOf (columnOf recordsOf p.2) rec.version = some value ∧
        rec.properties = [(p.1, value)] := by
  unfold scanRoutes
  rw [List.mem_map]
  constructor
  · rintro ⟨x, hx, rfl⟩
    exact ⟨x.value, (mem_lastOfVersions x).mp hx, rfl⟩
  · rintro ⟨value, hlast, hprops⟩
    refine ⟨⟨rec.version, value⟩, (mem_lastOfVersions _).mpr hlast, ?_⟩
    unfold SinglePropertyRecord.toScanRecord
    rw [← hprops]
    rfl

theorem exists_version {records : List GraphDbEdgeScanRecord} {dst sequence : Nat} :
    (∃ rec ∈ records, rec.dst = dst ∧ rec.sequence = sequence) ↔
      ⟨dst, sequence⟩ ∈ records.map GraphDbEdgeScanRecord.version := by
  simp [GraphDbEdgeScanRecord.version]

/-- A scan of several properties returns the versions that the scans of all of them return, each
once and with their values, and `ForEachEdge` calls back for the records of a scan. -/
theorem a_scan_is_the_intersection_of_its_properties (schema : Schema)
    (recordsOf : PropertyRoute → List SinglePropertyRecord) :
    (∀ (names : List String) (single : String → List GraphDbEdgeScanRecord), 2 ≤ names.length →
      (∀ name ∈ names, scanEdgesOver recordsOf schema [name] = .ok (single name)) →
      ∃ records, scanEdgesOver recordsOf schema names = .ok records ∧
        (records.map fun rec => (rec.dst, rec.sequence)).Nodup ∧
        (∀ dst sequence, (∃ rec ∈ records, rec.dst = dst ∧ rec.sequence = sequence) ↔
          ∀ name ∈ names, ∃ rec ∈ single name, rec.dst = dst ∧ rec.sequence = sequence) ∧
        ∀ rec ∈ records, ∀ name value, (name, value) ∈ rec.properties ↔
          name ∈ names ∧ ⟨rec.dst, rec.sequence, [(name, value)]⟩ ∈ single name) ∧
    ∀ (name : String) (records : List GraphDbEdgeScanRecord),
      scanEdgesOver recordsOf schema [name] = .ok records →
      ∃ visited, forEachEdgeOver recordsOf schema name collect [] = .ok visited ∧
        visited.map (SinglePropertyRecord.toScanRecord name) = records := by
  constructor
  · intro names single hlen hsingle
    have hone := fun name hname => scanEdgesOver_one (hsingle name hname)
    obtain ⟨routes, hres, hin, hsub⟩ := exists_resolve [] fun name hname =>
      ⟨(hone name hname).1, (hone name hname).2.imp fun r h => h.1⟩
    have hspec := resolve_spec hres
    have hin : ∀ name ∈ names, ∃ r, (name, r) ∈ routes := by
      intro name hname
      rcases hin name hname with hnil | hmem
      · cases hnil
      · obtain ⟨p, hp, rfl⟩ := List.mem_map.mp hmem
        exact ⟨p.2, hp⟩
    have hne : routes ≠ [] := by
      obtain ⟨name, hname⟩ := List.exists_mem_of_length_pos (show 0 < names.length by omega)
      obtain ⟨r, hr⟩ := hin name hname
      exact List.ne_nil_of_mem hr
    have hroutes : schema.resolveEdgePropertyRoutes names = some routes := by
      simp [Schema.resolveEdgePropertyRoutes, hres, hne]
    -- The scan of a name alone goes the route that the name has in the list.
    have hscan : ∀ p ∈ routes, single p.1 = scanRoutes recordsOf [p] := by
      intro p hp
      obtain ⟨-, r, hroute, hsingle⟩ := hone p.1 (hsub p hp)
      obtain rfl : r = p.2 := Option.some.inj (hroute.symm.trans (hspec.1 p hp).2)
      exact hsingle
    have hmeets : Intersects recordsOf routes _ := intersects_scanRoutes hne hspec.2
    refine ⟨scanRoutes recordsOf routes, by rw [scanEdgesOver, hroutes], ?_,
      fun dst sequence => ?_, fun rec hrec name value => ?_⟩
    · refine List.Nodup.of_map (fun v => (⟨v.1, v.2⟩ : EdgeVersionKey)) ?_
      rw [List.map_map]
      exact hmeets.once
    · rw [exists_version, hmeets.versions]
      constructor
      · intro h name hname
        obtain ⟨r, hr⟩ := hin name hname
        obtain ⟨value, hlast⟩ := h _ hr
        rw [hscan _ hr]
        exact ⟨⟨dst, sequence, _⟩, mem_scanRoutes_one.mpr ⟨value, hlast, rfl⟩, rfl, rfl⟩
      · intro h p hp
        obtain ⟨rec, hrec, rfl, rfl⟩ := h p.1 (hsub p hp)
        rw [hscan p hp] at hrec
        exact (mem_scanRoutes_one.mp hrec).imp fun value h => h.1
    · rw [hmeets.values rec hrec]
      constructor
      · rintro ⟨r, hr, hlast⟩
        rw [hscan _ hr]
        exact ⟨hsub _ hr, mem_scanRoutes_one.mpr ⟨value, hlast, rfl⟩⟩
      · rintro ⟨hname, hmem⟩
        obtain ⟨r, hr⟩ := hin name hname
        rw [hscan _ hr] at hmem
        obtain ⟨value', hlast, hprops⟩ := mem_scanRoutes_one.mp hmem
        cases hprops
        exact ⟨r, hr, hlast⟩
  · intro name records h
    obtain ⟨hname, r, hroute, rfl⟩ := scanEdgesOver_one h
    have hroutes : schema.resolveEdgePropertyRoutes [name] = some [(name, r)] := by
      simp [Schema.resolveEdgePropertyRoutes, Schema.resolve, hname, hroute]
    refine ⟨_, by rw [forEachEdgeOver, hroutes], ?_⟩
    rw [callUntil_collect, List.nil_append]
    rfl

/-- One edge is put with both properties, and one with the first property alone. -/
def twoEdges : GraphDb :=
  (((putEdge twoShards 1 2 [("A", bytes "a"), ("B", bytes "b")] .kSingle true 0
    (initial twoShards false)).bind fun r =>
      putEdge twoShards 1 3 [("A", bytes "c")] .kSingle true 0 r.2).map Prod.snd).getD
        (initial twoShards false)

theorem the_scan_of_two_properties_has_the_common_edge :
    ∃ records, scanEdges twoShards twoEdges 1 ["A", "B"] true 0 = .ok records ∧
      ((∃ rec ∈ records, rec.dst = 2 ∧ rec.sequence = 0) ∧
        ¬ ∃ rec ∈ records, rec.dst = 3 ∧ rec.sequence = 1) := by
  obtain ⟨records, hscan, -, hversions, -⟩ :=
    (a_scan_is_the_intersection_of_its_properties twoShards
      (twoEdges.routeRecords 1 true 0)).1 ["A", "B"]
      (fun name => if name = "A" then [⟨2, 0, [("A", bytes "a")]⟩, ⟨3, 1, [("A", bytes "c")]⟩]
        else [⟨2, 0, [("B", bytes "b")]⟩]) (by decide) (by decide +kernel)
  refine ⟨records, hscan, (hversions 2 0).mpr (by decide +kernel), fun h => ?_⟩
  exact absurd ((hversions 3 1).mp h) (by decide +kernel)

end GraphDb

end RichGraph
