-- The columns of a payload. Point reads, scans of arrays and of skip lists and the flush each cut a
-- payload at its bars with a loop of their own; all of them give a column the same bytes.
import RichGraph.Record

namespace RichGraph

namespace PayloadColumns

/-! ## The loops -/

/-- The loop of `ExtractSubProperty` from position `i` on. -/
def extractLoop (payload : Bytes) (propertyId : Int) : Nat → Nat → Nat → Nat → Bytes
  | 0, _, _, _ => []
  | turns + 1, i, current, begin =>
    if i = payload.length ∨ payload[i]? = some bar then
      if current = propertyId then (payload.drop begin).take (i - begin)
      else extractLoop payload propertyId turns (i + 1) (current + 1) (i + 1)
    else extractLoop payload propertyId turns (i + 1) current begin

/-- `ExtractSubProperty` -/
def extract (payload : Bytes) (propertyId : Int) : Bytes :=
  if propertyId < 0 then payload else extractLoop payload propertyId (payload.length + 1) 0 0 0

/-- The loop of the scans over the characters of a payload. -/
def collectLoop (id : Int) : Int → Bytes → Bytes → Bytes
  | _, ans, [] => ans
  | nowId, ans, c :: cs =>
    let nowId' := if c = bar then nowId + 1 else nowId
    let ans' := if c ≠ bar ∧ nowId = id then ans ++ [c] else ans
    if nowId' > id then ans' else collectLoop id nowId' ans' cs

/-- `Edge_string::property` -/
def property (payload : Bytes) (subPropertyId : Int) : Bytes :=
  if subPropertyId = -1 then payload else collectLoop subPropertyId 0 [] payload

/-- `edge_data` of the iterator over a skip list. -/
def edgeData (payload : Bytes) (inplace : Int) : Bytes :=
  if inplace = -1 then property payload (-1) else collectLoop inplace 0 [] (property payload (-1))

/-- The first loop of the flush: a slot for each segment, as long as there are columns. -/
def splitLoop (lengths : List Nat) (payload : Bytes) :
    Nat → Nat → Nat → Nat → List Bytes → Nat × List Bytes
  | 0, _, subPropertyId, _, slots => (subPropertyId, slots)
  | turns + 1, k, subPropertyId, segmentBegin, slots =>
    if subPropertyId < lengths.length then
      if k = payload.length ∨ payload[k]? = some bar then
        splitLoop lengths payload turns (k + 1) (subPropertyId + 1) (k + 1)
          (slots.set subPropertyId (writePaddedSubPropertySlot (lengths.getD subPropertyId 0)
            ((payload.drop segmentBegin).take (k - segmentBegin))))
      else splitLoop lengths payload turns (k + 1) subPropertyId segmentBegin slots
    else (subPropertyId, slots)

/-- The second loop: zeros for the columns that the payload does not have. -/
def clearLoop (lengths : List Nat) : Nat → Nat → List Bytes → List Bytes
  | 0, _, slots => slots
  | todo + 1, subPropertyId, slots =>
    clearLoop lengths todo (subPropertyId + 1)
      (slots.set subPropertyId (List.replicate (lengths.getD subPropertyId 0) 0))

/-- The second loop after the first. -/
def finish (lengths : List Nat) (p : Nat × List Bytes) : List Bytes :=
  clearLoop lengths (lengths.length - p.1) p.1 p.2

/-- The slots that the flush writes over what was there. -/
def splitColumns (lengths : List Nat) (payload : Bytes) (old : List Bytes) : List Bytes :=
  finish lengths (splitLoop lengths payload (payload.length + 1) 0 0 0 old)

/-! ## A column from its characters -/

theorem extractSubProperty_bar_zero (cs : Bytes) : extractSubProperty (bar :: cs) 0 = [] := by
  simp [extractSubProperty]

theorem extractSubProperty_bar_succ (cs : Bytes) (n : Nat) :
    extractSubProperty (bar :: cs) (n + 1) = extractSubProperty cs n := by
  simp [extractSubProperty]

theorem extractSubProperty_cons_zero {c : UInt8} (h : c ≠ bar) (cs : Bytes) :
    extractSubProperty (c :: cs) 0 = c :: extractSubProperty cs 0 := by
  simp [extractSubProperty, h]

theorem extractSubProperty_cons_succ {c : UInt8} (h : c ≠ bar) (cs : Bytes) (n : Nat) :
    extractSubProperty (c :: cs) (n + 1) = extractSubProperty cs (n + 1) := by
  simp [extractSubProperty, h]

/-- The loop of the scans goes on with the column that it has begun. -/
theorem collectLoop_eq (id nowId : Nat) (h : nowId ≤ id) (ans cs : Bytes) :
    collectLoop id nowId ans cs = ans ++ extractSubProperty cs (id - nowId) := by
  induction cs generalizing nowId ans with
  | nil => rw [extractSubProperty_nil, collectLoop, List.append_nil]
  | cons c cs ih =>
    by_cases hbar : c = bar
    · subst hbar
      by_cases hid : nowId = id
      · subst hid
        rw [Nat.sub_self, extractSubProperty_bar_zero]
        simp [collectLoop]
      · have hnext := ih (nowId + 1) (by omega) ans
        rw [show id - nowId = id - (nowId + 1) + 1 by omega, extractSubProperty_bar_succ, ← hnext]
        simp only [collectLoop, if_true, ne_eq, not_true, false_and, if_false]
        rw [if_neg (by omega)]
        rfl
    · have hstay : ¬ ((nowId : Int) > id) := by omega
      simp only [collectLoop, ne_eq, hbar, not_false_eq_true, true_and, if_false, if_neg hstay]
      by_cases hid : nowId = id
      · subst hid
        rw [if_pos rfl, ih nowId h, Nat.sub_self, extractSubProperty_cons_zero hbar,
          List.append_assoc]
        rfl
      · rw [if_neg (by omega), ih nowId h, show id - nowId = id - nowId - 1 + 1 by omega,
          extractSubProperty_cons_succ hbar]

/-! ## Columns by position -/

section

variable {payload : Bytes} {i begin : Nat}

/-- The column `n` columns after the one that began at `begin`, when a loop is at `i`. -/
def columnFrom (payload : Bytes) (i begin : Nat) : Nat → Bytes
  | 0 => (payload.drop begin).take (i - begin) ++ extractSubProperty (payload.drop i) 0
  | n + 1 => extractSubProperty (payload.drop i) (n + 1)

theorem columnFrom_self (n : Nat) :
    columnFrom payload i i n = extractSubProperty (payload.drop i) n := by
  cases n <;> simp [columnFrom]

/-- At the end of a column. -/
theorem columnFrom_end (begin : Nat) (h : i = payload.length ∨ payload[i]? = some bar) :
    columnFrom payload i begin 0 = (payload.drop begin).take (i - begin) ∧
      ∀ n, columnFrom payload i begin (n + 1) = columnFrom payload (i + 1) (i + 1) n := by
  rcases h with rfl | hbar
  · refine ⟨by simp [columnFrom, extractSubProperty_nil], fun n => ?_⟩
    rw [columnFrom_self, List.drop_of_length_le (Nat.le_succ _), columnFrom, List.drop_length,
      extractSubProperty_nil, extractSubProperty_nil]
  · obtain ⟨hi, hget⟩ := List.getElem?_eq_some_iff.mp hbar
    have hdrop : payload.drop i = bar :: payload.drop (i + 1) := by
      rw [List.drop_eq_getElem_cons hi, hget]
    refine ⟨?_, fun n => ?_⟩
    · rw [columnFrom, hdrop, extractSubProperty_bar_zero, List.append_nil]
    · rw [columnFrom_self, columnFrom, hdrop, extractSubProperty_bar_succ]

/-- Inside a column. -/
theorem columnFrom_inside (h : ¬ (i = payload.length ∨ payload[i]? = some bar))
    (hi : i ≤ payload.length) (hbegin : begin ≤ i) :
    i < payload.length ∧ columnFrom payload i begin = columnFrom payload (i + 1) begin := by
  rw [not_or] at h
  have hlt : i < payload.length := Nat.lt_of_le_of_ne hi h.1
  have hbar : payload[i] ≠ bar := fun hc => h.2 (List.getElem?_eq_some_iff.mpr ⟨hlt, hc⟩)
  refine ⟨hlt, funext fun n => ?_⟩
  cases n with
  | zero =>
    rw [columnFrom, columnFrom, List.drop_eq_getElem_cons hlt, extractSubProperty_cons_zero hbar,
      show i + 1 - begin = i - begin + 1 by omega, List.take_add_one, List.getElem?_drop,
      show begin + (i - begin) = i by omega, List.getElem?_eq_getElem hlt]
    simp
  | succ n =>
    rw [columnFrom, columnFrom, List.drop_eq_getElem_cons hlt, extractSubProperty_cons_succ hbar]

theorem columnFrom_past (h : payload.length < i) (n : Nat) : columnFrom payload i i n = [] := by
  rw [columnFrom_self, List.drop_of_length_le (Nat.le_of_lt h), extractSubProperty_nil]

/-- `ExtractSubProperty` finds the column that it counts to. -/
theorem extractLoop_eq (turns current n : Nat) (hi : i ≤ payload.length) (hbegin : begin ≤ i)
    (hturns : turns + i = payload.length + 1) :
    extractLoop payload ↑(current + n) turns i current begin = columnFrom payload i begin n := by
  induction turns generalizing i begin current n with
  | zero => omega
  | succ turns ih =>
    unfold extractLoop
    split
    · rename_i hend
      obtain ⟨hzero, hsucc⟩ := columnFrom_end begin hend
      cases n with
      | zero => rw [if_pos (by simp), hzero]
      | succ n =>
        rw [if_neg (by omega), hsucc, show current + (n + 1) = current + 1 + n by omega]
        by_cases hlast : i = payload.length
        · obtain rfl : turns = 0 := by omega
          rw [columnFrom_past (by omega), extractLoop]
        · exact ih (current + 1) n (by omega) (Nat.le_refl _) (by omega)
    · rename_i hinside
      obtain ⟨hlt, heq⟩ := columnFrom_inside hinside hi hbegin
      rw [heq]
      exact ih current n hlt (by omega) (by omega)

end

theorem extract_eq (payload : Bytes) (propertyId : Nat) :
    extract payload propertyId = extractSubProperty payload propertyId := by
  have hloop := extractLoop_eq (payload.length + 1) 0 propertyId (Nat.zero_le _) (Nat.le_refl 0) rfl
  rw [columnFrom_self, List.drop_zero, Nat.zero_add] at hloop
  rw [extract, if_neg (by omega), hloop]

theorem property_eq (payload : Bytes) (propertyId : Nat) :
    property payload propertyId = extractSubProperty payload propertyId := by
  rw [property, if_neg (by omega)]
  exact collectLoop_eq propertyId 0 (Nat.zero_le _) [] payload

/-! ## The slots of a flush -/

section

variable {lengths : List Nat} {payload : Bytes}

theorem getElem?_clearLoop (todo sub : Nat) (slots : List Bytes) {j : Nat} (hj : j < slots.length) :
    (clearLoop lengths todo sub slots)[j]? =
      if sub ≤ j ∧ j < sub + todo then some (List.replicate (lengths.getD j 0) 0)
      else slots[j]? := by
  induction todo generalizing sub slots with
  | zero => rw [if_neg (by omega), clearLoop]
  | succ todo ih =>
    rw [clearLoop, ih (sub + 1) _ (by rwa [List.length_set]), List.getElem?_set]
    by_cases hsub : sub = j
    · subst hsub
      rw [if_neg (by omega), if_pos rfl, if_pos hj, if_pos (by omega)]
    · by_cases hin : sub ≤ j ∧ j < sub + (todo + 1)
      · rw [if_pos (by omega), if_pos hin]
      · rw [if_neg (by omega), if_neg hsub, if_neg hin]

/-- No column is left in the payload, and the slots that are left get zeros. -/
theorem getElem?_finish {k sub : Nat} {slots : List Bytes} (hlen : slots.length = lengths.length)
    (payload : Bytes) (hpast : sub < lengths.length → payload.length < k) {j : Nat}
    (hj : j < lengths.length) :
    (finish lengths (sub, slots))[j]? = if j < sub then slots[j]? else
      some (writePaddedSubPropertySlot (lengths.getD j 0) (columnFrom payload k k (j - sub))) := by
  rw [finish, getElem?_clearLoop _ _ _ (show j < slots.length by omega)]
  by_cases hsub : j < sub
  · rw [if_neg (by omega), if_pos hsub]
  · rw [if_pos (by omega), if_neg hsub, columnFrom_past (hpast (by omega))]
    simp [writePaddedSubPropertySlot]

/-- A column that has a slot gets what the payload has for it. -/
theorem getElem?_splitLoop (turns sub : Nat) {k begin : Nat} {slots : List Bytes}
    (hbegin : begin ≤ k) (hpast : payload.length < k → begin = k)
    (hturns : turns + k = payload.length + 1) (hlen : slots.length = lengths.length)
    {j : Nat} (hj : j < lengths.length) :
    (finish lengths (splitLoop lengths payload turns k sub begin slots))[j]? =
      if j < sub then slots[j]? else
        some (writePaddedSubPropertySlot (lengths.getD j 0)
          (columnFrom payload k begin (j - sub))) := by
  induction turns generalizing k begin sub slots with
  | zero =>
    obtain rfl : begin = k := hpast (by omega)
    exact getElem?_finish hlen payload (fun _ => by omega) hj
  | succ turns ih =>
    unfold splitLoop
    split
    · rename_i hsub
      split
      · rename_i hend
        obtain ⟨hzero, hsucc⟩ := columnFrom_end begin hend
        rw [ih _ (Nat.le_refl _) (fun _ => rfl) (by omega) (by rwa [List.length_set])]
        rcases Nat.lt_trichotomy j sub with hlt | rfl | hgt
        · rw [if_pos (by omega), if_pos hlt, List.getElem?_set_ne (by omega)]
        · rw [if_pos (by omega), if_neg (by omega), List.getElem?_set_self (by omega), Nat.sub_self,
            hzero]
        · rw [if_neg (by omega), if_neg (by omega), show j - sub = j - (sub + 1) + 1 by omega,
            hsucc]
      · rename_i hinside
        obtain ⟨hlt, heq⟩ := columnFrom_inside hinside (by omega) hbegin
        rw [heq]
        exact ih sub (by omega) (fun _ => by omega) (by omega) hlen
    · rename_i hsub
      rw [getElem?_finish (k := k) hlen payload (fun h => absurd h hsub) hj, if_pos (by omega),
        if_pos (by omega)]

/-- The flush writes the slots of the columns, whatever was there before. -/
theorem splitColumns_eq {old : List Bytes} (hlen : old.length = lengths.length) {j : Nat}
    (hj : j < lengths.length) :
    (splitColumns lengths payload old)[j]? = (writeColumns lengths payload)[j]? := by
  have hsplit := getElem?_splitLoop (payload.length + 1) 0 (Nat.le_refl 0) (fun _ => rfl)
    rfl hlen hj
  rw [if_neg (Nat.not_lt_zero j), columnFrom_self, Nat.sub_zero, List.drop_zero] at hsplit
  rw [splitColumns, hsplit, writeColumns, List.getElem?_mapIdx,
    List.getElem?_eq_getElem hj, List.getD_eq_getElem?_getD, List.getElem?_eq_getElem hj]
  rfl

end

/-- The decoders of the read paths give every column the same bytes, and a flushed column gives
back those bytes as far as they fit, without zeros at their end. -/
theorem decoders_agree (payload : Bytes) (propertyId : Nat) :
    property payload propertyId = extract payload propertyId ∧
    edgeData payload propertyId = extract payload propertyId ∧
    (extract payload (-1) = payload ∧ property payload (-1) = payload ∧
      edgeData payload (-1) = payload) ∧
    ∀ (lengths : List Nat) (old : List Bytes) (len : Nat),
      old.length = lengths.length → lengths[propertyId]? = some len →
      ∃ slot, (splitColumns lengths payload old)[propertyId]? = some slot ∧
        readSubPropertyFromSlot slot =
          ((extract payload propertyId).take len).rdropWhile (· == 0) := by
  refine ⟨?_, ?_, ⟨rfl, rfl, rfl⟩, fun lengths old len hlen hget => ?_⟩
  · rw [property_eq, extract_eq]
  · rw [extract_eq, ← property_eq]
    rfl
  · have hlt : propertyId < lengths.length := (List.getElem?_eq_some_iff.mp hget).1
    refine ⟨writePaddedSubPropertySlot len (extractSubProperty payload propertyId), ?_, ?_⟩
    · rw [splitColumns_eq hlen hlt, writeColumns, List.getElem?_mapIdx, hget]
      rfl
    · rw [read_of_write, extract_eq]

theorem decoders_agree_on_a_missing_column :
    property (bytes "ab|c") 2 = extract (bytes "ab|c") 2 ∧
      ∃ slot, (splitColumns [1, 4, 3] (bytes "ab|c") [[7], [], [1, 2, 3]])[0]? = some slot ∧
        readSubPropertyFromSlot slot = bytes "a" := by
  refine ⟨(decoders_agree (bytes "ab|c") 2).1, ?_⟩
  exact (decoders_agree (bytes "ab|c") 0).2.2.2 [1, 4, 3] _ 1 rfl rfl

end PayloadColumns

end RichGraph
