import Mathlib.Data.BitVec
import Mathlib.Logic.Function.Basic

/-!
# Process numbers

`glb_pid_map` of `arch/i386/task/task.c`, and what `alloc_pid` and `free_pid` do to its bits. The
map is `MAX_PID / 32` words; what `free_pid` reaches beyond them is memory too, so a `PidMap` is the
words from `glb_pid_map` on.

**`allocPid_of_free`** and `allocPid_of_full` are the two outcomes of `alloc_pid`, and
`pidBit_freePid` is the effect of `free_pid` on a number of the map. `free_pid` tests `pid > MAX_PID`
where the map ends at `MAX_PID`, and **`pidsExact_iff`** is what that costs.
-/

namespace Hurlex.Task

/-- `MAX_TASK`. -/
def maxTask : Nat := 4096

/-- `MAX_PID`. -/
def maxPid : Nat := maxTask * 2

/-- The words from `glb_pid_map` on. -/
abbrev PidMap := Nat → BitVec 32

/-- The first clear bit of a word, as the inner loop of `alloc_pid` looks for it. -/
def clearBit (w : BitVec 32) : Option Nat :=
  (List.range 32).find? fun j => decide (((1 : BitVec 32) <<< j) &&& w = 0)

/-- `alloc_pid`: the map afterwards, and the number or -1. -/
def allocPid (m : PidMap) : PidMap × Int :=
  let found := (List.range (maxPid / 32)).findSome? fun i =>
    if m i = 0xFFFFFFFF then none else (clearBit (m i)).map fun j => (i, j)
  match found with
  | some (i, j) => (Function.update m i (m i ||| ((1 : BitVec 32) <<< j)), (i * 32 + j : Nat))
  | none => (m, -1)

/-- `free_pid`. -/
def freePid (m : PidMap) (pid : Int) : PidMap :=
  if pid < 0 ∨ pid > maxPid then m
  else
    let pid := pid.toNat
    Function.update m (pid / 32) (m (pid / 32) &&& ~~~((1 : BitVec 32) <<< (pid % 32)))

/-- Bit `p` of the map. -/
def pidBit (m : PidMap) (p : Nat) : Bool := (m (p / 32)).getLsbD (p % 32)

variable {m : PidMap} {w : BitVec 32} {i j p q : Nat}

/-! ## Words -/

theorem mask_getLsbD (hj : j < 32) (i : Nat) :
    ((1 : BitVec 32) <<< j).getLsbD i = decide (j = i) := by
  have h := BitVec.getLsbD_twoPow (w := 32) j i
  rw [BitVec.twoPow_eq] at h
  exact h.trans (by simp [hj])

theorem mask_and_eq_zero (hj : j < 32) :
    ((1 : BitVec 32) <<< j) &&& w = 0 ↔ w.getLsbD j = false := by
  constructor
  · intro h
    have hb : (((1 : BitVec 32) <<< j) &&& w).getLsbD j = (0 : BitVec 32).getLsbD j := by rw [h]
    rw [BitVec.getLsbD_and, mask_getLsbD hj] at hb
    simpa using hb
  · intro h
    refine BitVec.eq_of_getLsbD_eq fun i _ => ?_
    rw [BitVec.getLsbD_and, mask_getLsbD hj]
    by_cases hi : j = i
    · simp [← hi, h]
    · simp [hi]

theorem test_eq (hj : j < 32) :
    decide (((1 : BitVec 32) <<< j) &&& w = 0) = !w.getLsbD j := by
  by_cases h : w.getLsbD j = false
  · rw [h, decide_eq_true ((mask_and_eq_zero hj).2 h), Bool.not_false]
  · rw [decide_eq_false (mt (mask_and_eq_zero hj).1 h), eq_true_of_ne_false h, Bool.not_true]

theorem clearBit_eq_some :
    clearBit w = some j ↔ j < 32 ∧ w.getLsbD j = false ∧ ∀ i < j, w.getLsbD i = true := by
  rw [clearBit, List.find?_range_eq_some, List.mem_range]
  constructor
  · rintro ⟨h, hj, hlt⟩
    rw [test_eq hj] at h
    refine ⟨hj, by simpa using h, fun i hi => ?_⟩
    have := hlt i hi
    rw [test_eq (show i < 32 by omega)] at this
    simpa using this
  · rintro ⟨hj, h, hlt⟩
    rw [test_eq hj, h]
    refine ⟨rfl, hj, fun i hi => ?_⟩
    rw [test_eq (show i < 32 by omega), hlt i hi]
    rfl

theorem clearBit_eq_none : clearBit w = none ↔ ∀ j < 32, w.getLsbD j = true := by
  rw [clearBit, List.find?_range_eq_none]
  refine forall_congr' fun j => imp_congr_right fun hj => ?_
  rw [test_eq hj]
  cases w.getLsbD j <;> simp

/-- A word of all ones has no clear bit, so skipping it loses nothing. -/
theorem clearBit_ones : clearBit 0xFFFFFFFF = none := by decide

theorem findSome?_range {α : Type*} {f : Nat → Option α} {n : Nat} {b : α} :
    (List.range n).findSome? f = some b ↔ ∃ i < n, f i = some b ∧ ∀ j < i, f j = none := by
  induction n with
  | zero => simp
  | succ n ih =>
    rw [List.range_succ, List.findSome?_append, Option.or_eq_some_iff, ih]
    constructor
    · rintro (⟨i, hi, hf, hlt⟩ | ⟨hnone, hn⟩)
      · exact ⟨i, by omega, hf, hlt⟩
      · rw [List.findSome?_eq_none_iff] at hnone
        exact ⟨n, by omega, by simpa using hn, fun j hj => hnone j (List.mem_range.2 hj)⟩
    · rintro ⟨i, hi, hf, hlt⟩
      by_cases hin : i < n
      · exact Or.inl ⟨i, hin, hf, hlt⟩
      · obtain rfl : i = n := by omega
        refine Or.inr ⟨?_, by simpa using hf⟩
        rw [List.findSome?_eq_none_iff]
        exact fun j hj => hlt j (List.mem_range.1 hj)

/-! ## `alloc_pid` -/

/-- What the loop makes of one word. -/
theorem step_eq (m : PidMap) (i : Nat) :
    (if m i = 0xFFFFFFFF then none else (clearBit (m i)).map fun j => (i, j)) =
      (clearBit (m i)).map fun j => (i, j) := by
  by_cases h : m i = 0xFFFFFFFF
  · rw [if_pos h, h, clearBit_ones, Option.map_none]
  · rw [if_neg h]

theorem pidBit_mk (m : PidMap) (hj : j < 32) : pidBit m (i * 32 + j) = (m i).getLsbD j := by
  have h1 : (i * 32 + j) / 32 = i := by omega
  have h2 : (i * 32 + j) % 32 = j := by omega
  rw [pidBit, h1, h2]

theorem word_full_iff (m : PidMap) (i : Nat) :
    clearBit (m i) = none ↔ ∀ p, p / 32 = i → pidBit m p = true := by
  rw [clearBit_eq_none]
  constructor
  · rintro h p rfl
    exact h (p % 32) (Nat.mod_lt _ (by decide))
  · intro h j hj
    rw [← pidBit_mk m hj]
    exact h _ (by omega)

/-- With a number left, `alloc_pid` takes the smallest. -/
theorem allocPid_of_free (hp : p < maxPid) (hf : pidBit m p = false)
    (hlt : ∀ q < p, pidBit m q = true) :
    (allocPid m).2 = p ∧ ∀ q, pidBit (allocPid m).1 q = (decide (q = p) || pidBit m q) := by
  have hj : p % 32 < 32 := Nat.mod_lt _ (by decide)
  have hm : maxPid = 8192 := rfl
  have found : ((List.range (maxPid / 32)).findSome? fun i =>
      if m i = 0xFFFFFFFF then none else (clearBit (m i)).map fun j => (i, j)) =
        some (p / 32, p % 32) := by
    simp only [step_eq]
    rw [findSome?_range]
    refine ⟨p / 32, by omega, ?_, fun i hi => ?_⟩
    · have hc : clearBit (m (p / 32)) = some (p % 32) :=
        clearBit_eq_some.2 ⟨hj, hf, fun i hi => by
          rw [← pidBit_mk m (show i < 32 by omega)]
          exact hlt _ (by omega)⟩
      rw [hc, Option.map_some]
    · rw [(word_full_iff m i).2 fun q hq => hlt q (by omega), Option.map_none]
  have hdiv : p / 32 * 32 + p % 32 = p := by omega
  rw [allocPid, found]
  refine ⟨by simp only [hdiv], fun q => ?_⟩
  show (Function.update m (p / 32) (m (p / 32) ||| ((1 : BitVec 32) <<< (p % 32))) (q / 32)).getLsbD
    (q % 32) = (decide (q = p) || (m (q / 32)).getLsbD (q % 32))
  by_cases hq : q / 32 = p / 32
  · rw [hq, Function.update_self, BitVec.getLsbD_or, mask_getLsbD hj, Bool.or_comm]
    have same : decide (p % 32 = q % 32) = decide (q = p) := decide_eq_decide.2 (by omega)
    rw [same]
  · have hne : q ≠ p := fun h => hq (by rw [h])
    rw [Function.update_of_ne hq]
    simp [hne]

/-- With none left, it returns -1 and leaves the map alone. -/
theorem allocPid_of_full (h : ∀ p < maxPid, pidBit m p = true) : allocPid m = (m, -1) := by
  have hm : maxPid = 8192 := rfl
  have found : ((List.range (maxPid / 32)).findSome? fun i =>
      if m i = 0xFFFFFFFF then none else (clearBit (m i)).map fun j => (i, j)) = none := by
    simp only [step_eq]
    rw [List.findSome?_eq_none_iff]
    intro i hi
    have hi : i < maxPid / 32 := List.mem_range.1 hi
    rw [(word_full_iff m i).2 fun q hq => h q (by omega), Option.map_none]
  rw [allocPid, found]

/-- `alloc_pid`, if some number is left. -/
theorem allocPid_spec (h : ∃ p < maxPid, pidBit m p = false) :
    ∃ p < maxPid, pidBit m p = false ∧ (∀ q < p, pidBit m q = true) ∧ (allocPid m).2 = p ∧
      ∀ q, pidBit (allocPid m).1 q = (decide (q = p) || pidBit m q) := by
  obtain ⟨hp, hf⟩ := Nat.find_spec h
  have hlt : ∀ q < Nat.find h, pidBit m q = true := by
    intro q hq
    have := Nat.find_min h hq
    rw [not_and, Bool.not_eq_false] at this
    exact this (by omega)
  exact ⟨Nat.find h, hp, hf, hlt, allocPid_of_free hp hf hlt⟩

/-! ## `free_pid` -/

/-- The guard lets `MAX_PID` pass too: its bit is the first one behind the map. -/
theorem pidBit_freePid_of_le (m : PidMap) (hp : p ≤ maxPid) (q : Nat) :
    pidBit (freePid m p) q = (!decide (q = p) && pidBit m q) := by
  have hj : p % 32 < 32 := Nat.mod_lt _ (by decide)
  have hin : ¬((p : Int) < 0 ∨ (p : Int) > maxPid) := by omega
  rw [freePid, if_neg hin, Int.toNat_natCast]
  unfold pidBit
  by_cases hq : q / 32 = p / 32
  · rw [hq, Function.update_self, BitVec.getLsbD_and, BitVec.getLsbD_not, mask_getLsbD hj,
      Bool.and_comm]
    have same : decide (p % 32 = q % 32) = decide (q = p) := decide_eq_decide.2 (by omega)
    rw [same]
    simp [Nat.mod_lt q (show 0 < 32 by decide)]
  · have hne : q ≠ p := fun h => hq (by rw [h])
    rw [Function.update_of_ne hq]
    simp [hne]

theorem pidBit_freePid (m : PidMap) (hp : p < maxPid) (q : Nat) :
    pidBit (freePid m p) q = (!decide (q = p) && pidBit m q) :=
  pidBit_freePid_of_le m hp.le q

theorem freePid_outside {pid : Int} (h : pid < 0 ∨ pid > maxPid) : freePid m pid = m := if_pos h

/-! ## Exactness -/

/-- Maps with the same bits are the same. -/
theorem pidMap_ext {m' : PidMap} (h : ∀ q, pidBit m q = pidBit m' q) : m = m' := by
  funext i
  refine BitVec.eq_of_getLsbD_eq fun j hj => ?_
  rw [← pidBit_mk m hj, ← pidBit_mk m' hj, h]

/-- What `alloc_pid` should do: take the smallest number left, or none. -/
def AllocExact (m : PidMap) : Prop :=
  (∀ p < maxPid, pidBit m p = false → (∀ q < p, pidBit m q = true) →
    (allocPid m).2 = p ∧ ∀ q, pidBit (allocPid m).1 q = (decide (q = p) || pidBit m q)) ∧
  ((∀ p < maxPid, pidBit m p = true) → allocPid m = (m, -1))

/-- What `free_pid` should do: clear one bit of the map, or nothing. -/
def FreeExact (m : PidMap) (pid : Int) : Prop :=
  (∀ p : Nat, pid = p → p < maxPid →
    ∀ q, pidBit (freePid m pid) q = (!decide (q = p) && pidBit m q)) ∧
  (pid < 0 ∨ pid ≥ maxPid → freePid m pid = m)

/-- The bitmap operations are exact. -/
structure PidsExact (m : PidMap) (pid : Int) : Prop where
  alloc : AllocExact m
  free : FreeExact m pid
  back : freePid (allocPid m).1 (allocPid m).2 = m

theorem allocPid_exact (m : PidMap) : AllocExact m :=
  ⟨fun _ hp hf hlt => allocPid_of_free hp hf hlt, allocPid_of_full⟩

/-- **`free_pid(alloc_pid())` restores the map.** -/
theorem freePid_allocPid (m : PidMap) : freePid (allocPid m).1 (allocPid m).2 = m := by
  by_cases h : ∃ p < maxPid, pidBit m p = false
  · obtain ⟨p, hp, hf, -, hpid, hbits⟩ := allocPid_spec h
    refine pidMap_ext fun q => ?_
    rw [hpid, pidBit_freePid _ hp, hbits]
    by_cases hq : q = p
    · simp [hq, hf]
    · simp [hq]
  · have hfull : ∀ p < maxPid, pidBit m p = true := by
      intro p hp
      by_contra hf
      exact h ⟨p, hp, by simpa using hf⟩
    rw [allocPid_of_full hfull]
    have hneg : (-1 : Int) < 0 := by decide
    exact freePid_outside (Or.inl hneg)

/-- At `MAX_PID` nothing changes only if the bit behind the map is clear already. -/
theorem freePid_maxPid_iff (m : PidMap) : freePid m maxPid = m ↔ pidBit m maxPid = false := by
  have hbit := pidBit_freePid_of_le m (le_refl maxPid)
  constructor
  · intro h
    rw [← h, hbit]
    simp
  · intro h
    refine pidMap_ext fun q => ?_
    rw [hbit]
    by_cases hq : q = maxPid
    · simp [hq, h]
    · simp [hq]

theorem freeExact_iff (m : PidMap) (pid : Int) :
    FreeExact m pid ↔ pid ≠ maxPid ∨ pidBit m maxPid = false := by
  by_cases hpid : pid = maxPid
  · subst hpid
    rw [← freePid_maxPid_iff]
    constructor
    · exact fun h => Or.inr (h.2 (Or.inr (le_refl _)))
    · refine fun h => ⟨fun p hp hlt => ?_, fun _ => h.resolve_left (fun hne => hne rfl)⟩
      omega
  · refine iff_of_true ⟨?_, fun h => ?_⟩ (Or.inl hpid)
    · rintro p rfl hp q
      exact pidBit_freePid m hp q
    · refine freePid_outside (h.imp_right fun hge => ?_)
      omega

/-- **When the bitmap operations are exact**: except for the number `MAX_PID`, which `free_pid`'s
guard lets pass. -/
theorem pidsExact_iff (m : PidMap) (pid : Int) :
    PidsExact m pid ↔ pid ≠ maxPid ∨ pidBit m maxPid = false :=
  ⟨fun h => (freeExact_iff m pid).1 h.free,
    fun h => ⟨allocPid_exact m, (freeExact_iff m pid).2 h, freePid_allocPid m⟩⟩

/-- Whatever stands behind the map is safe from every other number. -/
theorem forall_freeExact_iff (pid : Int) : (∀ m, FreeExact m pid) ↔ pid ≠ maxPid := by
  constructor
  · rintro h rfl
    have hm := (freeExact_iff (fun _ => 1) maxPid).1 (h _)
    exact absurd (hm.resolve_left fun hne => hne rfl) (by decide)
  · exact fun h m => (freeExact_iff m pid).2 (Or.inl h)

/-- `free_pid(8192)` clears a bit of the word behind the map. -/
theorem pids_not_exact : ¬ ∀ (m : PidMap) (pid : Int), PidsExact m pid := by
  intro h
  have hm := congrFun ((h (fun _ => 1) 8192).free.2 (Or.inr (by decide))) 256
  exact absurd hm (by decide)

end Hurlex.Task
