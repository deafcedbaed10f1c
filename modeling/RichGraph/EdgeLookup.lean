-- The point lookup in the bodies of a file: a binary search on byte offsets for the destination,
-- and a scan of the records that have it. The numbers are ints, and no step may leave their range.
import RichGraph.EdgeBody
import RichGraph.SSTable

namespace RichGraph

open Lib EdgeBodyDym

namespace EdgeLookup

structure EdgeLookupResult where
  status : Status
  bodyOffset : Int
deriving DecidableEq

def notFound : EdgeLookupResult := ⟨.kNotFound, -1⟩

/-- The words at the front of some bytes, as a body. -/
def bodyOf (data : Bytes) : EdgeBodyDym :=
  ⟨readUint32 data, readUint32 (data.drop 4), readUint32 (data.drop 8),
    BitVec.ofNat 16 (ofLe ((data.drop 12).take 2)), BitVec.ofNat 16 (ofLe ((data.drop 14).take 2))⟩

/-- The body at an offset. Outside the buffer there is none. -/
def bodyAt (buffer : Bytes) (pos : Int) : Option EdgeBodyDym :=
  if 0 ≤ pos ∧ pos + edgeBodySize ≤ buffer.length then some (bodyOf (buffer.drop pos.toNat))
  else none

/-- A result of int arithmetic, when there is one. -/
def int32 (z : Int) : Option Int := if -2 ^ 31 ≤ z ∧ z < 2 ^ 31 then some z else none

section

variable (buffer : Bytes) (dst : BitVec 64) (isOut : Bool) (edgeType : UInt8) (high : Int)

/-- The first loop of `FindEdgeByDstDirectionAndType`. -/
def search : Nat → Int → Int → Option Int
  | 0, _, _ => none
  | fuel + 1, left, right =>
    if left < right then do
      let width ← int32 (right - left)
      let mid ← int32 (left + (width.tdiv 2).tdiv edgeBodySize * edgeBodySize)
      let body ← bodyAt buffer mid
      if body.getDst ≥ dst then search fuel left mid
      else do
        let next ← int32 (mid + edgeBodySize)
        search fuel next right
    else some left

/-- The second loop. -/
def scan : Nat → Int → Option EdgeLookupResult
  | 0, _ => none
  | fuel + 1, pos =>
    if pos < high then do
      let body ← bodyAt buffer pos
      if body.getDst ≠ dst then some notFound
      else if body.getIsOut ≠ isOut ∨ body.getEdgeType ≠ edgeType then do
        let next ← int32 (pos + edgeBodySize)
        scan fuel next
      else some ⟨if body.getMarker then .kDelete else .kOk, pos⟩
    else some notFound

def findEdgeByDstDirectionAndType (fuel : Nat) (low : Int) : Option EdgeLookupResult :=
  if low ≥ high then some notFound
  else do
    let left ← search buffer dst fuel low high
    scan buffer dst isOut edgeType high fuel left

end

/-! ## Offsets of a range -/

/-- The offsets of the records of a range. -/
def offsets (low n : Nat) : List Nat := (List.range n).map fun k => low + edgeBodySize * k

variable {buffer : Bytes} {dst : BitVec 64} {isOut : Bool} {edgeType : UInt8} {low n : Nat}

theorem int32_eq {z : Int} (hlow : -2 ^ 31 ≤ z) (hhigh : z < 2 ^ 31) : int32 z = some z :=
  if_pos ⟨hlow, hhigh⟩

theorem bodyAt_eq {k : Nat} (hrange : low + edgeBodySize * n ≤ buffer.length) (hk : k < n) :
    bodyAt buffer ↑(low + edgeBodySize * k) =
      some (bodyOf (buffer.drop (low + edgeBodySize * k))) := by
  unfold edgeBodySize at *
  unfold bodyAt edgeBodySize
  rw [if_pos (by omega), Int.toNat_natCast]

theorem length_offsets : (offsets low n).length = n := by simp [offsets]

theorem getElem?_offsets {k : Nat} (hk : k < n) :
    (offsets low n)[k]? = some (low + edgeBodySize * k) := by simp [offsets, hk]

theorem drop_offsets {k : Nat} (hk : k < n) :
    (offsets low n).drop k = (low + edgeBodySize * k) :: (offsets low n).drop (k + 1) := by
  rw [List.drop_eq_getElem_cons (by rwa [length_offsets])]
  simp [offsets]

/-- The search on offsets is a search on the records. -/
theorem search_eq (dst : BitVec 64) (hlimit : low + edgeBodySize * n < 2 ^ 31)
    (hrange : low + edgeBodySize * n ≤ buffer.length) (fuel a b : Nat) (hab : a ≤ b) (hb : b ≤ n)
    (hfuel : b - a < fuel) :
    search buffer dst fuel ↑(low + edgeBodySize * a) ↑(low + edgeBodySize * b) =
      some ↑(low + edgeBodySize *
        lowerBound (fun pos => decide (dst ≤ (bodyOf (buffer.drop pos)).getDst)) (offsets low n)
          fuel a b) := by
  induction fuel generalizing a b with
  | zero => omega
  | succ fuel ih =>
    by_cases hlt : a < b
    · -- Half of the bytes, cut to whole records, are half of the records.
      have hmid : (↑(low + edgeBodySize * a) : Int) +
          (((↑(low + edgeBodySize * b) : Int) - ↑(low + edgeBodySize * a)).tdiv 2).tdiv
            edgeBodySize * edgeBodySize = ↑(low + edgeBodySize * (a + (b - a) / 2)) := by
        have hdiv : ∀ z : Int, 0 ≤ z → (z.tdiv 2).tdiv 16 = z / 2 / 16 := fun z hz => by
          rw [Int.tdiv_eq_ediv_of_nonneg hz, Int.tdiv_eq_ediv_of_nonneg (by omega)]
        unfold edgeBodySize
        rw [Nat.cast_ofNat, hdiv _ (by omega)]
        omega
      have hmidlt : a + (b - a) / 2 < n := by omega
      unfold search
      rw [if_pos (by unfold edgeBodySize; omega),
        int32_eq (by unfold edgeBodySize at *; omega) (by unfold edgeBodySize at *; omega)]
      simp only [Option.bind_eq_bind, Option.bind_some, hmid]
      rw [int32_eq (by omega) (by unfold edgeBodySize at *; omega)]
      simp only [Option.bind_some, bodyAt_eq hrange hmidlt]
      simp only [lowerBound, if_pos hlt, getElem?_offsets hmidlt, Option.any_some,
        decide_eq_true_eq, ge_iff_le]
      split
      · exact ih a _ (by omega) (by omega) (by omega)
      · have hnext : (↑(low + edgeBodySize * (a + (b - a) / 2)) : Int) + edgeBodySize =
            ↑(low + edgeBodySize * (a + (b - a) / 2 + 1)) := by
          push_cast
          ring
        rw [hnext, int32_eq (by omega) (by unfold edgeBodySize at *; omega)]
        exact ih _ b (by omega) hb (by omega)
    · obtain rfl : a = b := by omega
      unfold search
      simp [lowerBound]

/-- What the lookup reports about the first offset with the key. -/
def report (buffer : Bytes) : Option Nat → EdgeLookupResult
  | none => notFound
  | some pos => ⟨if (bodyOf (buffer.drop pos)).getMarker then .kDelete else .kOk, pos⟩

/-- The scan goes over the records of the destination. -/
theorem scan_eq (hlimit : low + edgeBodySize * n < 2 ^ 31)
    (hrange : low + edgeBodySize * n ≤ buffer.length) (fuel k : Nat) (hk : k ≤ n)
    (hfuel : n - k < fuel) :
    scan buffer dst isOut edgeType ↑(low + edgeBodySize * n) fuel ↑(low + edgeBodySize * k) =
      some (report buffer ((((offsets low n).drop k).takeWhile fun pos =>
        (bodyOf (buffer.drop pos)).getDst.toNat = dst.toNat).find? fun pos =>
          (bodyOf (buffer.drop pos)).getIsOut == isOut &&
            (bodyOf (buffer.drop pos)).getEdgeType == edgeType)) := by
  induction fuel generalizing k with
  | zero => omega
  | succ fuel ih =>
    by_cases hlt : k < n
    · unfold scan
      rw [if_pos (by unfold edgeBodySize; omega)]
      simp only [Option.bind_eq_bind, bodyAt_eq hrange hlt, Option.bind_some]
      rw [drop_offsets hlt]
      by_cases hdst : (bodyOf (buffer.drop (low + edgeBodySize * k))).getDst = dst
      · rw [if_neg (not_not.mpr hdst), List.takeWhile_cons_of_pos (by simp [hdst])]
        split
        · rename_i hother
          have hnext : (↑(low + edgeBodySize * k) : Int) + edgeBodySize =
              ↑(low + edgeBodySize * (k + 1)) := by
            push_cast
            ring
          rw [hnext, int32_eq (by omega) (by unfold edgeBodySize at *; omega), Option.bind_some,
            ih (k + 1) hlt (by omega), List.find?_cons_of_neg]
          rw [Bool.and_eq_true, beq_iff_eq, beq_iff_eq]
          tauto
        · rename_i hsame
          rw [not_or, not_not, not_not] at hsame
          rw [List.find?_cons_of_pos (by simp [hsame.1, hsame.2])]
          rfl
      · rw [if_pos hdst, List.takeWhile_cons_of_neg]
        · rfl
        · simpa using fun heq => hdst (BitVec.eq_of_toNat_eq heq)
    · obtain rfl : k = n := by omega
      unfold scan
      rw [if_neg (by omega), List.drop_of_length_le (by rw [length_offsets])]
      rfl

/-- The order of the records of a source. -/
def InOrder (a b : EdgeBodyDym) : Prop :=
  a.getDst < b.getDst ∨ a.getDst = b.getDst ∧ b.getSeq ≤ a.getSeq

instance : DecidableRel InOrder := fun _ _ => inferInstanceAs (Decidable (_ ∨ _))

def Matches (dst : BitVec 64) (isOut : Bool) (edgeType : UInt8) (b : EdgeBodyDym) : Prop :=
  b.getDst = dst ∧ b.getIsOut = isOut ∧ b.getEdgeType = edgeType

instance (b : EdgeBodyDym) : Decidable (Matches dst isOut edgeType b) :=
  inferInstanceAs (Decidable (_ ∧ _))

/-- In groups of one destination the lookup ends and reports the first match. -/
theorem lookup_of_groups
    (hlimit : low + edgeBodySize * n < 2 ^ 31) (hrange : low + edgeBodySize * n ≤ buffer.length)
    (hgroups : (offsets low n).Pairwise fun i j =>
      (bodyOf (buffer.drop i)).getDst.toNat ≤ (bodyOf (buffer.drop j)).getDst.toNat)
    (dst : BitVec 64) (isOut : Bool) (edgeType : UInt8) {fuel : Nat} (hfuel : n < fuel) :
    findEdgeByDstDirectionAndType buffer dst isOut edgeType ↑(low + edgeBodySize * n) fuel ↑low =
      some (report buffer ((offsets low n).find? fun pos =>
        Matches dst isOut edgeType (bodyOf (buffer.drop pos)))) := by
  unfold findEdgeByDstDirectionAndType
  by_cases hn : n = 0
  · subst hn
    rw [if_pos (by simp)]
    rfl
  · have hsearch := search_eq dst hlimit hrange fuel 0 n (Nat.zero_le _) (Nat.le_refl _) hfuel
    have hle : lowerBound (fun pos => decide (dst ≤ (bodyOf (buffer.drop pos)).getDst))
        (offsets low n) fuel 0 n ≤ n := (lowerBound_range fuel 0 n (Nat.zero_le _)).2
    have hlen : (offsets low n).length ≤ fuel := length_offsets.le.trans hfuel.le
    rw [Nat.mul_zero, Nat.add_zero] at hsearch
    rw [if_neg (by unfold edgeBodySize; omega), hsearch, Option.bind_eq_bind, Option.bind_some,
      scan_eq hlimit hrange fuel _ hle (by omega)]
    congr 2
    have hfirst := find?_group (q := fun pos => (bodyOf (buffer.drop pos)).getIsOut == isOut &&
      (bodyOf (buffer.drop pos)).getEdgeType == edgeType) dst.toNat hgroups hlen
    rw [length_offsets] at hfirst
    refine hfirst.trans ?_
    congr 1
    funext pos
    rw [Bool.eq_iff_iff, decide_eq_true_iff (p := Matches ..)]
    simp only [Matches, Bool.and_eq_true, beq_iff_eq, decide_eq_true_eq, BitVec.toNat_inj]

/-- On records in order the lookup ends, stays inside the buffer and the ints, and reports the
first record with the destination, the direction and the type, or that there is none. -/
theorem lookup_reports_the_first_match
    (hlimit : low + edgeBodySize * n < 2 ^ 31) (hrange : low + edgeBodySize * n ≤ buffer.length)
    (hsorted : (offsets low n).Pairwise fun i j =>
      InOrder (bodyOf (buffer.drop i)) (bodyOf (buffer.drop j)))
    (dst : BitVec 64) (isOut : Bool) (edgeType : UInt8) {fuel : Nat} (hfuel : n < fuel) :
    findEdgeByDstDirectionAndType buffer dst isOut edgeType ↑(low + edgeBodySize * n) fuel ↑low =
      some (report buffer ((offsets low n).find? fun pos =>
        Matches dst isOut edgeType (bodyOf (buffer.drop pos)))) := by
  refine lookup_of_groups hlimit hrange (hsorted.imp ?_) dst isOut edgeType hfuel
  rintro i j (hlt | ⟨heq, -⟩)
  · exact Nat.le_of_lt hlt
  · rw [heq]

/-- Two records of one destination in both directions. -/
def twoBodies : Bytes :=
  (EdgeBodyDym.make 5#64 9#64 0#32 false true 0 ⟨0, 0, 0, 0, 0⟩).bytes ++
    (EdgeBodyDym.make 5#64 7#64 0#32 true false 0 ⟨0, 0, 0, 0, 0⟩).bytes

theorem the_second_of_two_bodies_is_found :
    findEdgeByDstDirectionAndType twoBodies 5#64 false 0 32 3 0 = some ⟨.kDelete, 16⟩ :=
  (@lookup_reports_the_first_match twoBodies 0 2 (by decide) (by decide) (by decide) 5#64 false 0 3
    (by decide)).trans (by decide)

/-! ## The records of the bodies -/

/-- The bodies from `low` on are those of the records. -/
def Stored (buffer : Bytes) (low : Nat) (rs : List EdgeRecord) : Prop :=
  ∀ i r, rs[i]? = some r →
    (bodyOf (buffer.drop (low + edgeBodySize * i))).getDst.toNat = r.dst ∧
    (bodyOf (buffer.drop (low + edgeBodySize * i))).getIsOut = r.isOut ∧
    (bodyOf (buffer.drop (low + edgeBodySize * i))).getEdgeType = r.edgeType

/-- The lookup in the bytes is the lookup in the records. -/
theorem lookup_of_records {rs : List EdgeRecord} (h : Stored buffer low rs)
    (hlimit : low + edgeBodySize * rs.length < 2 ^ 31)
    (hrange : low + edgeBodySize * rs.length ≤ buffer.length)
    (hsorted : rs.Pairwise fun a b => a.dst ≤ b.dst)
    (dst : BitVec 64) (isOut : Bool) (edgeType : UInt8) {fuel : Nat} (hfuel : rs.length < fuel) :
    findEdgeByDstDirectionAndType buffer dst isOut edgeType ↑(low + edgeBodySize * rs.length) fuel
        ↑low =
      some (report buffer ((findEdgeOrdinal rs dst.toNat isOut edgeType).map
        fun i => low + edgeBodySize * i)) := by
  have hgroups : (offsets low rs.length).Pairwise fun i j =>
      (bodyOf (buffer.drop i)).getDst.toNat ≤ (bodyOf (buffer.drop j)).getDst.toNat := by
    rw [offsets, List.pairwise_map]
    refine List.pairwise_lt_range.imp_of_mem fun {i j} hi hj hij => ?_
    rw [List.mem_range] at hi hj
    rw [(h i _ (List.getElem?_eq_getElem hi)).1, (h j _ (List.getElem?_eq_getElem hj)).1]
    exact List.pairwise_iff_getElem.mp hsorted i j hi hj hij
  have hmatches : ∀ i, (hi : i < rs.length) →
      (Matches dst isOut edgeType (bodyOf (buffer.drop (low + edgeBodySize * i))) ↔
        (decide (rs[i].dst = dst.toNat) &&
          (rs[i].isOut == isOut && rs[i].edgeType == edgeType)) = true) := by
    intro i hi
    obtain ⟨hdst, hout, htype⟩ := h i _ (List.getElem?_eq_getElem hi)
    simp only [Matches, ← hdst, ← hout, ← htype, Bool.and_eq_true, beq_iff_eq, decide_eq_true_eq,
      BitVec.toNat_inj]
  rw [lookup_of_groups hlimit hrange hgroups dst isOut edgeType hfuel, offsets, List.find?_map,
    findEdgeOrdinal, findIdx?_group dst.toNat hsorted (Nat.le_refl _)]
  congr 3
  refine Option.ext fun i => ?_
  rw [List.find?_range_eq_some, List.findIdx?_eq_some_iff_getElem, List.mem_range]
  constructor
  · rintro ⟨hfound, hi, hbefore⟩
    refine ⟨hi, (hmatches i hi).mp (of_decide_eq_true hfound), fun j hji hj => ?_⟩
    have := hbefore j hji
    simp [(hmatches j (by omega)).mpr hj] at this
  · rintro ⟨hi, hfound, hbefore⟩
    refine ⟨decide_eq_true ((hmatches i hi).mpr hfound), hi, fun j hji => ?_⟩
    simpa using fun hj => hbefore j hji ((hmatches j (by omega)).mp hj)

end EdgeLookup

end RichGraph
