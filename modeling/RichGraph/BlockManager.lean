-- The arena for the data of cached files, over a file. Any number of calls take
-- blocks from it at the same time. As long as its sizes do not wrap, the blocks
-- never overlap, and the file under a block is long enough before it is handed out.
import RichGraph.Lib.Runs
import Mathlib.Tactic.Ring

namespace RichGraph

namespace BlockManager

/-- `FILE_TRUNC_SIZE` -/
def fileTruncSize : Nat := 2 ^ 30

/-- A call has its pointer, has found the file too short, or is over. -/
inductive Phase where
  | claimed
  | growing
  | returned
  | thrown
deriving DecidableEq

structure Call where
  pointer : Nat
  blockSize : Nat
  phase : Phase

/-- The end of the block, a `size_t`. -/
def Call.last (c : Call) : Nat := (c.pointer + c.blockSize) % 2 ^ 64

structure State where
  usedSize : Nat := 0
  fileSize : Nat := fileTruncSize
  /-- what `ftruncate` has made of the file -/
  fileLength : Nat := fileTruncSize
  calls : List Call := []

/-- The calls are numbered as they take their pointers. -/
inductive Action where
  | fetchAdd (blockSize : Nat)
  | check (i : Nat)
  | grow (i : Nat) (truncated : Bool)

def State.setPhase (s : State) (i : Nat) (c : Call) (phase : Phase) : State :=
  { s with calls := s.calls.set i { c with phase := phase } }

/-- The steps of `alloc`. The size of the file is looked at without the lock first. -/
def step (s : State) : Action → Option State
  | .fetchAdd n => some { s with
      usedSize := (s.usedSize + n) % 2 ^ 64, calls := s.calls ++ [⟨s.usedSize, n, .claimed⟩] }
  | .check i => s.calls[i]?.bind fun c =>
    if c.phase = .claimed then
      some (s.setPhase i c (if s.fileSize ≤ c.last then .growing else .returned))
    else none
  | .grow i truncated => s.calls[i]?.bind fun c =>
    let newFileSize := (c.last / fileTruncSize + 1) * fileTruncSize % 2 ^ 64
    if c.phase ≠ .growing then none
    else if newFileSize < s.fileSize then some (s.setPhase i c .returned)
    else if truncated then
      some { s.setPhase i c .returned with fileSize := newFileSize, fileLength := newFileSize }
    else some (s.setPhase i c .thrown)

/-- What is taken in all stays so small that no size wraps. -/
def Fits (s : State) : Action → Prop
  | .fetchAdd n => s.usedSize + n + fileTruncSize < 2 ^ 64
  | _ => True

instance (s : State) : (a : Action) → Decidable (Fits s a)
  | .fetchAdd _ => inferInstanceAs (Decidable (_ < _))
  | .check _ | .grow _ _ => .isTrue trivial

def Call.span (c : Call) : Nat × Nat := (c.pointer, c.pointer + c.blockSize)

structure Inv (s : State) : Prop where
  /-- a call starts where the calls before it end -/
  apart : (s.calls.map Call.span).Pairwise fun a b => a.2 ≤ b.1
  below : ∀ a ∈ s.calls.map Call.span, a.2 ≤ s.usedSize
  inside : ∀ c ∈ s.calls, c.phase = .returned → c.pointer + c.blockSize < s.fileSize
  file : s.fileSize = s.fileLength
  room : s.usedSize + fileTruncSize < 2 ^ 64

variable {s : State}

theorem Inv.last_eq {c : Call} (h : Inv s) (hc : c ∈ s.calls) :
    c.last = c.pointer + c.blockSize ∧ c.last + fileTruncSize < 2 ^ 64 := by
  have hbelow : c.pointer + c.blockSize ≤ s.usedSize := h.below _ (List.mem_map_of_mem hc)
  have hroom := h.room
  have hlast : c.last = c.pointer + c.blockSize := Nat.mod_eq_of_lt (by omega)
  exact ⟨hlast, by omega⟩

/-- A call goes on: its block stays, and the file does not get shorter. -/
theorem inv_setPhase {i : Nat} {c : Call} {phase : Phase} {size : Nat} (h : Inv s)
    (hc : s.calls[i]? = some c) (hsize : s.fileSize ≤ size)
    (hinside : phase = .returned → c.pointer + c.blockSize < size) :
    Inv { s.setPhase i c phase with fileSize := size, fileLength := size } := by
  obtain ⟨hi, hget⟩ := List.getElem?_eq_some_iff.mp hc
  have hspans : (s.calls.set i { c with phase := phase }).map Call.span =
      s.calls.map Call.span := by
    have hi' : i < (s.calls.map Call.span).length := by simpa
    have hspan : Call.span { c with phase := phase } = (s.calls.map Call.span)[i] := by
      rw [List.getElem_map, hget]
      rfl
    rw [List.map_set, hspan, List.set_getElem_self]
  refine ⟨?_, ?_, fun c' hc' hphase => ?_, rfl, h.room⟩
  · exact hspans ▸ h.apart
  · exact hspans ▸ h.below
  · rcases List.mem_or_eq_of_mem_set hc' with hc' | rfl
    · exact Nat.lt_of_lt_of_le (h.inside c' hc' hphase) hsize
    · exact hinside hphase

theorem inv_step {a : Action} {s' : State} (h : Inv s) (hok : Fits s a)
    (hs : step s a = some s') : Inv s' := by
  have hkeep : ∀ {i c phase}, s.calls[i]? = some c →
      (phase = .returned → c.pointer + c.blockSize < s.fileSize) → Inv (s.setPhase i c phase) := by
    intro i c phase hc hinside
    exact { inv_setPhase h hc (Nat.le_refl _) hinside with file := h.file }
  cases a with
  | fetchAdd n =>
    have hok : s.usedSize + n + fileTruncSize < 2 ^ 64 := hok
    have hused : (s.usedSize + n) % 2 ^ 64 = s.usedSize + n := Nat.mod_eq_of_lt (by omega)
    simp only [step, hused, Option.some.injEq] at hs
    subst hs
    refine ⟨?_, fun a ha => ?_, fun c hc hphase => ?_, h.file, hok⟩
    · rw [List.map_append, List.pairwise_append]
      exact ⟨h.apart, List.pairwise_singleton _ _, fun a ha b hb =>
        List.mem_singleton.mp hb ▸ h.below a ha⟩
    · rw [List.map_append] at ha
      rcases List.mem_append.mp ha with ha | ha
      · exact Nat.le_trans (h.below a ha) (Nat.le_add_right _ _)
      · rw [List.mem_singleton.mp ha]
        exact Nat.le_refl _
    · rcases List.mem_append.mp hc with hc | hc
      · exact h.inside c hc hphase
      · rw [List.mem_singleton.mp hc] at hphase
        cases hphase
  | check i =>
    obtain ⟨c, hc, hs⟩ := Option.bind_eq_some_iff.mp hs
    split_ifs at hs with hphase hshort
    · cases hs
      exact hkeep hc nofun
    · cases hs
      have hlast := (h.last_eq (List.mem_of_getElem? hc)).1
      exact hkeep hc fun _ => hlast ▸ Nat.not_le.mp hshort
  | grow i truncated =>
    obtain ⟨c, hc, hs⟩ := Option.bind_eq_some_iff.mp hs
    obtain ⟨hlast, hsmall⟩ := h.last_eq (List.mem_of_getElem? hc)
    have hroom : c.last < (c.last / fileTruncSize + 1) * fileTruncSize :=
      Nat.lt_mul_of_div_lt (Nat.lt_succ_self _) (by decide)
    have hnew : (c.last / fileTruncSize + 1) * fileTruncSize % 2 ^ 64 =
        (c.last / fileTruncSize + 1) * fileTruncSize := by
      have hdiv := Nat.div_mul_le_self c.last fileTruncSize
      refine Nat.mod_eq_of_lt ?_
      rw [Nat.succ_mul]
      omega
    rw [hlast] at hroom hnew
    simp only [hlast, hnew] at hs
    split_ifs at hs with hphase hlong
    · cases hs
      exact hkeep hc fun _ => Nat.lt_trans hroom hlong
    · cases hs
      exact inv_setPhase h hc (Nat.not_lt.mp hlong) fun _ => hroom
    · cases hs
      exact hkeep hc nofun

/-- However the calls interleave, while no size wraps no two blocks overlap, and a block that was
returned is inside the file and inside what has been taken. -/
theorem blocks_never_overlap (h : Lib.Reach step Fits {} s) :
    (s.calls.map Call.span).Pairwise (fun a b => a.2 ≤ b.1) ∧
    ∀ c ∈ s.calls, c.phase = .returned → c.pointer + c.blockSize < s.fileLength ∧
      c.pointer + c.blockSize ≤ s.usedSize := by
  have hinv : Inv s := by
    refine h.invariant ?_ fun s a s' hinv hok hs => inv_step hinv hok hs
    exact ⟨List.Pairwise.nil, nofun, nofun, rfl, by decide⟩
  refine ⟨hinv.apart, fun c hc hphase => ⟨?_, hinv.below _ (List.mem_map_of_mem hc)⟩⟩
  exact hinv.file ▸ hinv.inside c hc hphase

/-- Two calls find the file too short, and the later one is the first to make it longer. -/
theorem two_blocks_that_grow_the_file : ∃ s : State,
    s.calls.map Call.phase = [.returned, .returned] ∧
    (s.calls.map Call.span).Pairwise fun a b => a.2 ≤ b.1 := by
  obtain ⟨s, hs, hp⟩ := Lib.exists_reach_of_run step Fits {}
    [.fetchAdd (2 ^ 30), .fetchAdd 5, .check 0, .check 1, .grow 1 true, .grow 0 true]
    (fun s => s.calls.map Call.phase = [.returned, .returned]) (by decide)
  exact ⟨s, hp, (blocks_never_overlap hs).1⟩

end BlockManager

end RichGraph
