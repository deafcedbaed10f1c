-- A sorted file of records with its index of sources: where the records of a
-- source stand, and which of them a lookup of one edge returns. Offsets count
-- records, not bytes.
import RichGraph.Record
import RichGraph.Lib.BinarySearch
import RichGraph.Lib.NewestFirst

namespace RichGraph

/-- A file and its metadata (`SSTableCache`). `timeStamp` is its file id. -/
structure SSTable where
  timeStamp : Nat
  records : List EdgeRecord
  nonempty : records ≠ []
  sorted : records.Pairwise EdgeRecord.le
  src_lt : ∀ r ∈ records, r.src < invalidVertexId

structure Index where
  key : Nat
  offset : Nat
deriving DecidableEq, Repr

/-- The index that the writers of a file build: an entry whenever the source changes, and the
entry that ends the index. -/
def indexFrom : Nat → Option Nat → List EdgeRecord → List Index
  | off, _, [] => [⟨invalidVertexId, off⟩]
  | off, prev, r :: rs =>
    if prev = some r.src then indexFrom (off + 1) prev rs
    else ⟨r.src, off⟩ :: indexFrom (off + 1) (some r.src) rs

namespace SSTable

def minKey (t : SSTable) : Nat := (t.records.head t.nonempty).src

def maxKey (t : SSTable) : Nat := (t.records.getLast t.nonempty).src

def indexes (t : SSTable) : List Index := indexFrom 0 none t.records

/-- `SSTableCache::get`: the position of a source in the index. -/
def get (t : SSTable) (src : Nat) : Option Nat :=
  Lib.exactSearch (t.indexes.map Index.key) src t.indexes.length 0 t.indexes.length

/-- The offsets between which the records of a source stand. -/
def offsets (t : SSTable) (src : Nat) : Option (Nat × Nat) := do
  let pos ← t.get src
  let entry ← t.indexes[pos]?
  let next ← t.indexes[pos + 1]?
  return (entry.offset, next.offset)

def slice (t : SSTable) (offset nextOffset : Nat) : List EdgeRecord :=
  (t.records.drop offset).take (nextOffset - offset)

/-- The records of a source. -/
def recordsOf (t : SSTable) (src : Nat) : List EdgeRecord := t.records.filter (·.src = src)

end SSTable

/-- `FindEdgeByDstDirectionAndType`: a lower bound on the destination, then a scan of the
records of that destination. -/
def findEdgeByDstDirectionAndType (bodies : List EdgeRecord) (dst : Nat) (isOut : Bool)
    (edgeType : UInt8) : Option EdgeRecord :=
  let left := Lib.lowerBound (fun r => decide (dst ≤ r.dst)) bodies bodies.length 0 bodies.length
  ((bodies.drop left).takeWhile fun r => r.dst = dst).find?
    fun r => r.isOut == isOut && r.edgeType == edgeType

/-- The same, with the place of the record in the bodies. -/
def findEdgeOrdinal (bodies : List EdgeRecord) (dst : Nat) (isOut : Bool) (edgeType : UInt8) :
    Option Nat :=
  let left := Lib.lowerBound (fun r => decide (dst ≤ r.dst)) bodies bodies.length 0 bodies.length
  (((bodies.drop left).takeWhile fun r => r.dst = dst).findIdx?
    fun r => r.isOut == isOut && r.edgeType == edgeType).map (left + ·)

/-! ## The index -/

variable {off : Nat} {prev : Option Nat} {rs : List EdgeRecord}

theorem indexFrom_head (off p : Nat) (hs : rs.Pairwise fun a b => a.src ≤ b.src)
    (hp : ∀ r ∈ rs, p ≤ r.src) :
    ∃ v h rest, indexFrom off (some p) rs = ⟨v, h⟩ :: rest ∧ off ≤ h ∧
      rs.take (h - off) = rs.filter (·.src = p) := by
  induction rs generalizing off with
  | nil => exact ⟨_, off, [], rfl, Nat.le_refl _, by simp⟩
  | cons r rs ih =>
    rw [List.pairwise_cons] at hs
    by_cases hr : p = r.src
    · have hge : ∀ x ∈ rs, p ≤ x.src := fun x hx => hp x (List.mem_cons_of_mem _ hx)
      obtain ⟨v, h, rest, he, hle, htake⟩ := ih (off + 1) hs.2 hge
      refine ⟨v, h, rest, by simp [indexFrom, hr, ← he], by omega, ?_⟩
      have hsub : h - off = h - (off + 1) + 1 := by omega
      rw [hsub, List.take_succ_cons, htake, List.filter_cons_of_pos (by simp [hr])]
    · refine ⟨r.src, off, indexFrom (off + 1) (some r.src) rs, by simp [indexFrom, hr],
        Nat.le_refl _, ?_⟩
      have hlt : p < r.src := Nat.lt_of_le_of_ne (hp r List.mem_cons_self) hr
      rw [Nat.sub_self, List.take_zero, eq_comm, List.filter_eq_nil_iff]
      intro x hx
      rcases List.mem_cons.mp hx with rfl | hx
      · simpa using fun h => hr h.symm
      · have := hs.1 x hx
        simp only [decide_eq_true_eq]
        omega

/-- The keys of the index go up, and end with the key of no vertex. -/
theorem indexFrom_keys (off : Nat) (prev : Option Nat)
    (hs : rs.Pairwise fun a b => a.src ≤ b.src)
    (hp : ∀ p, prev = some p → ∀ r ∈ rs, p ≤ r.src) (hlt : ∀ r ∈ rs, r.src < invalidVertexId) :
    ((indexFrom off prev rs).map Index.key).Pairwise (· < ·) ∧
      ∀ v, v ∈ (indexFrom off prev rs).map Index.key ↔
        v = invalidVertexId ∨ prev ≠ some v ∧ ∃ r ∈ rs, r.src = v := by
  induction rs generalizing off prev with
  | nil => simp [indexFrom]
  | cons r rs ih =>
    rw [List.pairwise_cons] at hs
    have hlt' : ∀ x ∈ rs, x.src < invalidVertexId := fun x hx => hlt x (List.mem_cons_of_mem _ hx)
    by_cases hr : prev = some r.src
    · have hp' : ∀ p, prev = some p → ∀ x ∈ rs, p ≤ x.src :=
        fun p hpp x hx => hp p hpp x (List.mem_cons_of_mem _ hx)
      obtain ⟨hpair, hmem⟩ := ih (off + 1) _ hs.2 hp' hlt'
      simp only [indexFrom, hr, if_true]
      rw [hr] at hpair hmem
      refine ⟨hpair, fun v => ?_⟩
      rw [hmem v]
      constructor
      · rintro (h | ⟨hne, x, hx, hv⟩)
        · exact Or.inl h
        · exact Or.inr ⟨hne, x, List.mem_cons_of_mem _ hx, hv⟩
      · rintro (h | ⟨hne, x, hx, hv⟩)
        · exact Or.inl h
        · rcases List.mem_cons.mp hx with rfl | hx
          · exact absurd (congrArg some hv) hne
          · exact Or.inr ⟨hne, x, hx, hv⟩
    · have hp' : ∀ p, some r.src = some p → ∀ x ∈ rs, p ≤ x.src := by
        intro p hpp x hx
        cases hpp
        exact hs.1 x hx
      obtain ⟨hpair, hmem⟩ := ih (off + 1) _ hs.2 hp' hlt'
      simp only [indexFrom, hr, if_false, List.map_cons, List.pairwise_cons]
      refine ⟨⟨?_, hpair⟩, fun v => ?_⟩
      · intro v hv
        rcases (hmem v).mp hv with rfl | ⟨hne, x, hx, rfl⟩
        · exact hlt r List.mem_cons_self
        · have hne' : r.src ≠ x.src := fun h => hne (by rw [h])
          exact Nat.lt_of_le_of_ne (hs.1 x hx) hne'
      · rw [List.mem_cons, hmem v]
        constructor
        · rintro (rfl | h | ⟨-, x, hx, rfl⟩)
          · exact Or.inr ⟨hr, r, List.mem_cons_self, rfl⟩
          · exact Or.inl h
          · have hle := hs.1 x hx
            by_cases hpx : prev = some x.src
            · have hxr := hp _ hpx r List.mem_cons_self
              exact absurd (by rw [hpx, Nat.le_antisymm hxr hle]) hr
            · exact Or.inr ⟨hpx, x, List.mem_cons_of_mem _ hx, rfl⟩
        · rintro (h | ⟨-, x, hx, rfl⟩)
          · exact Or.inr (Or.inl h)
          · rcases List.mem_cons.mp hx with rfl | hx
            · exact Or.inl rfl
            · by_cases hxr : r.src = x.src
              · exact Or.inl hxr.symm
              · exact Or.inr (Or.inr ⟨fun h => hxr (Option.some.inj h), x, hx, rfl⟩)

/-- Between an entry and the next one stand the records of its source. -/
theorem indexFrom_slice (hs : rs.Pairwise fun a b => a.src ≤ b.src)
    (hp : ∀ p, prev = some p → ∀ r ∈ rs, p ≤ r.src) (hlt : ∀ r ∈ rs, r.src < invalidVertexId)
    {i : Nat} {e next : Index} (he : (indexFrom off prev rs)[i]? = some e)
    (hn : (indexFrom off prev rs)[i + 1]? = some next) :
    off ≤ e.offset ∧
      (rs.drop (e.offset - off)).take (next.offset - e.offset) = rs.filter (·.src = e.key) := by
  induction rs generalizing off prev i with
  | nil => simp [indexFrom] at hn
  | cons r rs ih =>
    rw [List.pairwise_cons] at hs
    have hlt' : ∀ x ∈ rs, x.src < invalidVertexId := fun x hx => hlt x (List.mem_cons_of_mem _ hx)
    -- An entry that the rest of the records gives is not about the source of `r`.
    have hshift : ∀ {j : Nat}, (indexFrom (off + 1) (some r.src) rs)[j]? = some e →
        (indexFrom (off + 1) (some r.src) rs)[j + 1]? = some next →
        off ≤ e.offset ∧ ((r :: rs).drop (e.offset - off)).take (next.offset - e.offset) =
          (r :: rs).filter (·.src = e.key) := by
      intro j hj hj'
      have hp' : ∀ p, some r.src = some p → ∀ x ∈ rs, p ≤ x.src := by
        intro p hpp x hx
        cases hpp
        exact hs.1 x hx
      obtain ⟨hle, hslice⟩ := ih hs.2 hp' hlt' hj hj'
      have hkey : e.key ∈ (indexFrom (off + 1) (some r.src) rs).map Index.key :=
        List.mem_map_of_mem (List.mem_of_getElem? hj)
      have hne : ¬ r.src = e.key := by
        intro h
        rcases ((indexFrom_keys _ _ hs.2 hp' hlt').2 _).mp hkey with hinv | ⟨hsome, -⟩
        · have := hlt r List.mem_cons_self
          omega
        · exact hsome (by rw [h])
      refine ⟨by omega, ?_⟩
      have hsub : e.offset - off = e.offset - (off + 1) + 1 := by omega
      rw [hsub, List.drop_succ_cons, hslice, List.filter_cons_of_neg (by simpa using hne)]
    by_cases hr : prev = some r.src
    · simp only [indexFrom, hr, if_true] at he hn
      exact hshift he hn
    · simp only [indexFrom, hr, if_false] at he hn
      cases i with
      | succ j => exact hshift (by simpa using he) (by simpa using hn)
      | zero =>
        simp only [List.getElem?_cons_zero, Option.some.injEq] at he
        subst he
        obtain ⟨v, h, rest, heq, hle, htake⟩ := indexFrom_head _ r.src hs.2 hs.1
        rw [heq] at hn
        simp only [Nat.zero_add, List.getElem?_cons_succ, List.getElem?_cons_zero,
          Option.some.injEq] at hn
        subst hn
        refine ⟨Nat.le_refl _, ?_⟩
        have hsub : h - off = h - (off + 1) + 1 := by omega
        simp only [Nat.sub_self, List.drop_zero, hsub, List.take_succ_cons, htake]
        rw [List.filter_cons_of_pos (by simp)]

theorem indexFrom_ne_nil : indexFrom off prev rs ≠ [] := by
  induction rs generalizing off prev with
  | nil => simp [indexFrom]
  | cons r rs ih =>
    simp only [indexFrom]
    split
    · exact ih
    · simp

/-- The last entry of the index is the only one without a next one. -/
theorem indexFrom_next {i : Nat} {e : Index} (he : (indexFrom off prev rs)[i]? = some e)
    (hn : (indexFrom off prev rs)[i + 1]? = none) : e.key = invalidVertexId := by
  induction rs generalizing off prev i with
  | nil =>
    cases i with
    | zero =>
      simp only [indexFrom, List.getElem?_cons_zero, Option.some.injEq] at he
      rw [← he]
    | succ i => simp [indexFrom] at he
  | cons r rs ih =>
    simp only [indexFrom] at he hn
    split at he
    · rename_i h
      rw [if_pos h] at hn
      exact ih he hn
    · rename_i h
      rw [if_neg h] at hn
      cases i with
      | succ i => exact ih (by simpa using he) (by simpa using hn)
      | zero =>
        rw [List.getElem?_cons_succ, List.getElem?_eq_none_iff, Nat.le_zero,
          List.length_eq_zero_iff] at hn
        exact absurd hn indexFrom_ne_nil

namespace SSTable

variable (t : SSTable)

theorem src_sorted : t.records.Pairwise fun a b => a.src ≤ b.src :=
  t.sorted.imp EdgeRecord.src_le_of_le

theorem mem_recordsOf {t : SSTable} {v : Nat} {r : EdgeRecord} :
    r ∈ t.recordsOf v ↔ r ∈ t.records ∧ r.src = v := by
  simp [recordsOf]

theorem get_eq_some_iff (v pos : Nat) :
    t.get v = some pos ↔ ∃ e, t.indexes[pos]? = some e ∧ e.key = v := by
  have hkeys := (indexFrom_keys 0 none t.src_sorted (by simp) t.src_lt).1
  have := Lib.exactSearch_eq_some_iff hkeys v pos
  rw [List.length_map] at this
  unfold get indexes
  rw [this, List.getElem?_map, Option.map_eq_some_iff]

/-- The index gives the records of a source. -/
theorem slice_of_offsets {t : SSTable} {v offset next : Nat}
    (h : t.offsets v = some (offset, next)) : t.slice offset next = t.recordsOf v := by
  simp only [offsets, Option.bind_eq_bind, Option.bind_eq_some_iff, Option.pure_def,
    Option.some.injEq, Prod.mk.injEq] at h
  obtain ⟨pos, hpos, e, he, n, hn, rfl, rfl⟩ := h
  obtain ⟨e', he', rfl⟩ := (t.get_eq_some_iff v pos).mp hpos
  rw [he] at he'
  cases he'
  have := (indexFrom_slice t.src_sorted (by simp) t.src_lt he hn).2
  rwa [Nat.sub_zero] at this

theorem offsets_isSome_iff {v : Nat} :
    (t.offsets v).isSome ↔ ∃ r ∈ t.records, r.src = v := by
  obtain ⟨hpair, hmem⟩ := indexFrom_keys 0 none t.src_sorted (by simp) t.src_lt
  constructor
  · intro h
    obtain ⟨⟨o, n⟩, h⟩ := Option.isSome_iff_exists.mp h
    simp only [offsets, Option.bind_eq_bind, Option.bind_eq_some_iff] at h
    obtain ⟨pos, hpos, -, -, next, hnext, -⟩ := h
    obtain ⟨e, he, hk⟩ := (t.get_eq_some_iff v pos).mp hpos
    have hin : ∀ {i : Nat} {x : Index}, t.indexes[i]? = some x →
        x.key ∈ (indexFrom 0 none t.records).map Index.key :=
      fun hx => List.mem_map_of_mem (List.mem_of_getElem? hx)
    rcases (hmem v).mp (hk ▸ hin he) with hinv | ⟨-, h⟩
    · -- The entry that ends the index has no next entry.
      have hlt : e.key < next.key := Lib.getElem?_lt_of_pairwise hpair (i := pos) (j := pos + 1)
        (by rw [List.getElem?_map]; exact congrArg (Option.map Index.key) he)
        (by rw [List.getElem?_map]; exact congrArg (Option.map Index.key) hnext)
        (Nat.lt_succ_self _)
      rcases (hmem next.key).mp (hin hnext) with h | ⟨-, r, hr, h⟩
      · omega
      · have := t.src_lt r hr
        omega
    · exact h
  · intro h
    obtain ⟨r, hr, hrv⟩ := h
    obtain ⟨e, he, hk⟩ := List.mem_map.mp ((hmem v).mpr (Or.inr ⟨by simp, r, hr, hrv⟩))
    obtain ⟨pos, hpos⟩ := List.mem_iff_getElem?.mp he
    have hget := (t.get_eq_some_iff v pos).mpr ⟨e, hpos, hk⟩
    cases hn : (indexFrom 0 none t.records)[pos + 1]? with
    | none =>
      have := indexFrom_next hpos hn
      have := t.src_lt r hr
      omega
    | some n =>
      have hpos' : t.indexes[pos]? = some e := hpos
      have hn' : t.indexes[pos + 1]? = some n := hn
      simp [offsets, hget, hpos', hn']

theorem minKey_le {t : SSTable} {r : EdgeRecord} (hr : r ∈ t.records) : t.minKey ≤ r.src := by
  have hs := t.src_sorted
  unfold minKey
  rw [← List.cons_head_tail t.nonempty] at hr hs
  rcases List.mem_cons.mp hr with rfl | hr
  · exact Nat.le_refl _
  · exact (List.pairwise_cons.mp hs).1 r hr

theorem le_maxKey {t : SSTable} {r : EdgeRecord} (hr : r ∈ t.records) : r.src ≤ t.maxKey := by
  have hs := t.src_sorted
  unfold maxKey
  rw [← List.dropLast_append_getLast t.nonempty] at hr hs
  rcases List.mem_append.mp hr with hr | hr
  · exact (List.pairwise_append.mp hs).2.2 r hr _ (by simp)
  · rw [List.mem_singleton.mp hr]

theorem exists_maxKey : ∃ r ∈ t.records, r.src = t.maxKey := ⟨_, List.getLast_mem t.nonempty, rfl⟩

theorem minKey_le_maxKey (t : SSTable) : t.minKey ≤ t.maxKey := by
  obtain ⟨r, hr, hrk⟩ := t.exists_maxKey
  rw [← hrk]
  exact minKey_le hr

end SSTable

/-! ## The lookup -/

/-- The record of the lookup stands at the place of the lookup. -/
theorem findEdgeByDstDirectionAndType_eq {bodies : List EdgeRecord}
    (hs : bodies.Pairwise fun a b => a.dst ≤ b.dst) (dst : Nat) (isOut : Bool) (edgeType : UInt8) :
    findEdgeByDstDirectionAndType bodies dst isOut edgeType =
      (findEdgeOrdinal bodies dst isOut edgeType).bind fun n => bodies[n]? := by
  unfold findEdgeByDstDirectionAndType findEdgeOrdinal
  rw [Lib.find?_group dst hs (Nat.le_refl _), Lib.findIdx?_group dst hs (Nat.le_refl _),
    List.find?_eq_bind_findIdx?_getElem?]

/-- A scan from the lower bound of the destination finds the newest record with `q`, in the records
of one source. -/
theorem newest_from_lowerBound {κ : Type*} {key : EdgeRecord → κ} {k : κ} {q : EdgeRecord → Bool}
    {bodies : List EdgeRecord} {src dst : Nat}
    (hkey : ∀ r ∈ bodies, key r = k ↔ r.dst = dst ∧ q r = true)
    (hsrc : ∀ r ∈ bodies, r.src = src) (hs : bodies.Pairwise EdgeRecord.le) :
    Lib.Newest key EdgeRecord.seq bodies k
      (((bodies.drop (Lib.lowerBound (fun r => decide (dst ≤ r.dst)) bodies bodies.length 0
        bodies.length)).takeWhile fun r => r.dst = dst).find? q) := by
  have hord : bodies.Pairwise fun a b => a.dst < b.dst ∨ a.dst = b.dst ∧ b.seq ≤ a.seq := by
    refine hs.imp_of_mem ?_
    intro a b ha hb hab
    have := hsrc a ha
    have := hsrc b hb
    rw [EdgeRecord.le_iff] at hab
    omega
  rw [Lib.find?_group dst (hord.imp fun h => by omega) (Nat.le_refl _)]
  apply Lib.newest_find?
  · intro r hr
    rw [hkey r hr]
    simp
  · refine hord.imp_of_mem ?_
    intro a b ha hb hab hak hbk
    have := ((hkey a ha).mp hak).1
    have := ((hkey b hb).mp hbk).1
    omega

/-- On the sorted records of one source the lookup returns the newest record of the key. -/
theorem newest_findEdgeByDstDirectionAndType {bodies : List EdgeRecord} {k : EdgeKey}
    (hsrc : ∀ r ∈ bodies, r.src = k.src) (hs : bodies.Pairwise EdgeRecord.le) :
    Lib.Newest EdgeRecord.key EdgeRecord.seq bodies k
      (findEdgeByDstDirectionAndType bodies k.dst k.isOut k.edgeType) := by
  apply newest_from_lowerBound _ hsrc hs
  intro r hr
  have := hsrc r hr
  obtain ⟨src, dst, isOut, edgeType⟩ := k
  simp_all [EdgeRecord.key]

end RichGraph
