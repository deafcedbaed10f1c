-- Columns that are joined on a key. Each column has a name and gives a value to
-- some keys; a row collects the values of one key by name, and the full rows are
-- those to which every column has given a value.
import Mathlib.Data.List.AList
import Mathlib.Data.List.Induction

namespace Lib

variable {κ ν β : Type} [DecidableEq κ] [DecidableEq ν]

/-- The rows by key, each with its values by name. -/
abbrev Rows (κ ν β : Type) := AList (fun _ : κ => AList (fun _ : ν => β))

namespace Rows

def set (n : ν) (rows : Rows κ ν β) (p : κ × β) : Rows κ ν β :=
  rows.insert p.1 (((rows.lookup p.1).getD ∅).insert n p.2)

def addColumn (rows : Rows κ ν β) (column : ν × List (κ × β)) : Rows κ ν β :=
  column.2.foldl (set column.1) rows

def join (columns : List (ν × List (κ × β))) : Rows κ ν β := columns.foldl addColumn ∅

/-- The keys whose row has values for `count` names. -/
def full (count : Nat) (rows : Rows κ ν β) : List κ :=
  (rows.entries.filter fun e => e.2.keys.length == count).map Sigma.fst

def value (rows : Rows κ ν β) (k : κ) (n : ν) : Option β := (rows.lookup k).bind (·.lookup n)

/-! ## Values -/

theorem value_set (n : ν) (rows : Rows κ ν β) (p : κ × β) (k : κ) (m : ν) :
    (rows.set n p).value k m = if k = p.1 ∧ m = n then some p.2 else rows.value k m := by
  unfold set value
  by_cases hk : k = p.1
  · subst hk
    rw [AList.lookup_insert, Option.bind_some]
    by_cases hm : m = n
    · subst hm
      rw [AList.lookup_insert, if_pos ⟨rfl, rfl⟩]
    · rw [AList.lookup_insert_ne hm, if_neg (fun h => hm h.2)]
      cases rows.lookup p.1 <;> rfl
  · rw [AList.lookup_insert_ne hk, if_neg (fun h => hk h.1)]

/-- The value that a column gives to a key: a later one takes the place of an earlier one. -/
def lastOf (column : List (κ × β)) (k : κ) : Option β :=
  (column.filter (·.1 = k)).getLast?.map Prod.snd

omit [DecidableEq ν] in
theorem lastOf_concat (column : List (κ × β)) (p : κ × β) (k : κ) :
    lastOf (column ++ [p]) k = if p.1 = k then some p.2 else lastOf column k := by
  unfold lastOf
  rw [List.filter_append, List.filter_singleton]
  by_cases hp : p.1 = k <;> simp [hp]

omit [DecidableEq ν] in
/-- In a column in which every key has one value, that is its value. -/
theorem lastOf_eq_some_iff {column : List (κ × β)} (h : (column.map Prod.fst).Nodup) {k : κ}
    {b : β} : lastOf column k = some b ↔ (k, b) ∈ column := by
  induction column using List.reverseRecOn with
  | nil => simp [lastOf]
  | append_singleton column p ih =>
    rw [List.map_append, List.nodup_append] at h
    obtain ⟨hnodup, -, hnew⟩ := h
    rw [lastOf_concat, List.mem_append, List.mem_singleton]
    by_cases hp : p.1 = k
    · subst hp
      have hnot : (p.1, b) ∉ column := fun hc =>
        hnew p.1 (List.mem_map.mpr ⟨_, hc, rfl⟩) p.1 (by simp) rfl
      simp [hnot, Prod.ext_iff, eq_comm]
    · have hne : (k, b) ≠ p := fun hc => hp (by rw [← hc])
      simp [hp, hne, ih hnodup]

theorem value_addColumn (column : ν × List (κ × β)) (rows : Rows κ ν β) (k : κ) (m : ν) :
    (rows.addColumn column).value k m =
      if m = column.1 then (lastOf column.2 k).or (rows.value k m) else rows.value k m := by
  obtain ⟨n, column⟩ := column
  unfold addColumn
  dsimp only
  induction column using List.reverseRecOn with
  | nil => simp [lastOf]
  | append_singleton column p ih =>
    rw [List.foldl_append, List.foldl_cons, List.foldl_nil, value_set, ih, lastOf_concat]
    by_cases hm : m = n
    · by_cases hk : k = p.1
      · rw [if_pos ⟨hk, hm⟩, if_pos hm, if_pos hk.symm, Option.some_or]
      · rw [if_neg fun h => hk h.1, if_pos hm, if_pos hm, if_neg (Ne.symm hk)]
    · rw [if_neg fun h => hm h.2, if_neg hm, if_neg hm]

theorem value_empty (k : κ) (m : ν) : (∅ : Rows κ ν β).value k m = none := by
  simp [value]

/-- Columns of other names leave a value as it is. -/
theorem value_foldl_of_ne {columns : List (ν × List (κ × β))} {m : ν}
    (h : m ∉ columns.map Prod.fst) (rows : Rows κ ν β) (k : κ) :
    (columns.foldl addColumn rows).value k m = rows.value k m := by
  induction columns generalizing rows with
  | nil => rfl
  | cons c columns ih =>
    rw [List.map_cons, List.mem_cons, not_or] at h
    rw [List.foldl_cons, ih h.2, value_addColumn, if_neg h.1]

/-- A join has the values of its columns and no others. -/
theorem value_join {columns : List (ν × List (κ × β))} (hnames : (columns.map Prod.fst).Nodup)
    (k : κ) (m : ν) (b : β) :
    (join columns).value k m = some b ↔
      ∃ column, (m, column) ∈ columns ∧ lastOf column k = some b := by
  constructor
  · intro h
    by_cases hm : m ∈ columns.map Prod.fst
    · obtain ⟨c, hc, rfl⟩ := List.mem_map.mp hm
      refine ⟨c.2, hc, ?_⟩
      obtain ⟨before, after, rfl⟩ := List.append_of_mem hc
      simp only [List.map_append, List.map_cons, List.nodup_append, List.nodup_cons] at hnames
      obtain ⟨-, ⟨hafter, -⟩, hbefore⟩ := hnames
      rw [join, List.foldl_append, List.foldl_cons, value_foldl_of_ne hafter, value_addColumn,
        if_pos rfl, value_foldl_of_ne fun hc => hbefore _ hc _ List.mem_cons_self rfl,
        value_empty, Option.or_none] at h
      exact h
    · rw [join, value_foldl_of_ne hm, value_empty] at h
      cases h
  · rintro ⟨column, hc, hlast⟩
    obtain ⟨before, after, rfl⟩ := List.append_of_mem hc
    simp only [List.map_append, List.map_cons, List.nodup_append, List.nodup_cons] at hnames
    rw [join, List.foldl_append, List.foldl_cons, value_foldl_of_ne hnames.2.1.1, value_addColumn,
      if_pos rfl, hlast, Option.some_or]

/-! ## Full rows -/

variable {columns : List (ν × List (κ × β))}

omit [DecidableEq ν] in
theorem mem_full {count : Nat} {rows : Rows κ ν β} {k : κ} :
    k ∈ full count rows ↔ ∃ row, rows.lookup k = some row ∧ row.keys.length = count := by
  unfold full
  simp only [List.mem_map, List.mem_filter, beq_iff_eq]
  constructor
  · rintro ⟨⟨k', row⟩, ⟨he, hlen⟩, rfl⟩
    exact ⟨row, AList.mem_lookup_iff.mpr he, hlen⟩
  · rintro ⟨row, hrow, hlen⟩
    exact ⟨⟨k, row⟩, ⟨AList.mem_lookup_iff.mp hrow, hlen⟩, rfl⟩

omit [DecidableEq κ] [DecidableEq ν] in
theorem full_nodup (count : Nat) (rows : Rows κ ν β) : (full count rows).Nodup :=
  rows.nodupKeys.sublist List.filter_sublist

/-- The names of a row are those of the columns that gave it a value. -/
theorem mem_keys_join (hnames : (columns.map Prod.fst).Nodup) {k : κ}
    {row : AList (fun _ : ν => β)} (hrow : (join columns).lookup k = some row) (m : ν) :
    m ∈ row.keys ↔ ∃ column b, (m, column) ∈ columns ∧ lastOf column k = some b := by
  have hvalue : ∀ b, row.lookup m = some b ↔
      ∃ column, (m, column) ∈ columns ∧ lastOf column k = some b := by
    intro b
    rw [← value_join hnames]
    unfold value
    rw [hrow, Option.bind_some]
  rw [← AList.mem_keys, ← AList.lookup_isSome, Option.isSome_iff_exists]
  constructor
  · rintro ⟨b, hb⟩
    obtain ⟨column, hcol, hmem⟩ := (hvalue b).mp hb
    exact ⟨column, b, hcol, hmem⟩
  · rintro ⟨column, b, hcol, hmem⟩
    exact ⟨b, (hvalue b).mpr ⟨column, hcol, hmem⟩⟩

/-- A full row has a value of every column. -/
theorem mem_full_join (hne : columns ≠ []) (hnames : (columns.map Prod.fst).Nodup) (k : κ) :
    k ∈ full columns.length (join columns) ↔ ∀ c ∈ columns, ∃ b, lastOf c.2 k = some b := by
  rw [mem_full]
  constructor
  · rintro ⟨row, hrow, hlen⟩ c hc
    have hkeys := mem_keys_join hnames hrow
    have hsub : row.keys ⊆ columns.map Prod.fst := by
      intro m hm
      obtain ⟨column, b, hcol, -⟩ := (hkeys m).mp hm
      exact List.mem_map.mpr ⟨_, hcol, rfl⟩
    have hperm : row.keys.Perm (columns.map Prod.fst) :=
      (List.subperm_of_subset row.keys_nodup hsub).perm_of_length_le (by simp [hlen])
    obtain ⟨column, b, hcol, hb⟩ := (hkeys c.1).mp
      (hperm.mem_iff.mpr (List.mem_map_of_mem hc))
    have hsame : (c.1, column) = c :=
      List.inj_on_of_nodup_map hnames hcol hc rfl
    exact ⟨b, by rw [← hsame]; exact hb⟩
  · intro hall
    obtain ⟨c, rest, rfl⟩ := List.exists_cons_of_ne_nil hne
    obtain ⟨b, hb⟩ := hall c List.mem_cons_self
    have hvalue := (value_join hnames k c.1 b).mpr ⟨c.2, List.mem_cons_self, hb⟩
    obtain ⟨row, hrow, -⟩ := Option.bind_eq_some_iff.mp hvalue
    refine ⟨row, hrow, ?_⟩
    have hkeys := mem_keys_join hnames hrow
    have hperm : row.keys.Perm ((c :: rest).map Prod.fst) := by
      rw [List.perm_ext_iff_of_nodup row.keys_nodup hnames]
      intro m
      rw [hkeys]
      constructor
      · rintro ⟨column, b, hcol, -⟩
        exact List.mem_map.mpr ⟨_, hcol, rfl⟩
      · intro hm
        obtain ⟨d, hd, rfl⟩ := List.mem_map.mp hm
        obtain ⟨b, hb⟩ := hall d hd
        exact ⟨d.2, b, hd, hb⟩
    simpa using hperm.length_eq

end Rows

end Lib
