import Hurlex.Mm.BuddyCanon

/-!
# Blocks that never merge again

Freeing an allocation whose size is no power of two cuts it from the low bit up, so its pieces lie
at odd places: of 18 pages at a multiple of 32, the second piece is a block of 16 pages that starts
2 behind that multiple. Its buddy would start among the pages of a smaller block whose own buddy
would start within the piece. Two such blocks (`Stuck`) stay on their lists whatever is freed later
(`freePages_stuck`).
-/

namespace Hurlex.Buddy

open Lib

/-- Two free blocks each of which holds the page where the other's buddy would start. -/
structure Stuck (fl : FreeLists) (i o i' o' : Nat) : Prop where
  mem : i ∈ fl o
  mem' : i' ∈ fl o'
  le : o ≤ maxOrder
  le' : o' ≤ maxOrder
  holds : i' ≤ buddy i o ∧ buddy i o < i' + 2 ^ o'
  holds' : i ≤ buddy i' o' ∧ buddy i' o' < i + 2 ^ o

variable {N : Nat} {fl : FreeLists} {i o i' o' : Nat}

theorem Stuck.symm (h : Stuck fl i o i' o') : Stuck fl i' o' i o :=
  ⟨h.mem', h.mem, h.le', h.le, h.holds', h.holds⟩

/-- The buddy of a stuck block is never the block in hand. -/
theorem Stuck.mem_drop (h : Stuck fl i o i' o') {j q : Nat}
    (hfit : Fits N ((j, 2 ^ q) :: blocks fl)) : i ∈ drop fl (buddy j q) q o := by
  unfold drop
  by_cases hq : o = q
  · subst hq
    rw [Function.update_self]
    refine (List.mem_erase_of_ne fun e => ?_).mpr h.mem
    have hj : buddy i o = j := by rw [e, buddy_buddy]
    have hholds := h.holds
    rw [hj] at hholds
    exact hfit.notMem (block_mem h.le' h.mem') (Seg.mem_cells.mpr hholds) (block_first_mem j o)
  · rw [Function.update_of_ne hq]
    exact h.mem

theorem Stuck.drop (h : Stuck fl i o i' o') {j q : Nat}
    (hfit : Fits N ((j, 2 ^ q) :: blocks fl)) : Stuck (drop fl (buddy j q) q) i o i' o' :=
  ⟨h.mem_drop hfit, h.symm.mem_drop hfit, h.le, h.le', h.holds, h.holds'⟩

theorem Stuck.put (h : Stuck fl i o i' o') (j q : Nat) : Stuck (put fl j q) i o i' o' :=
  ⟨mem_put h.mem, mem_put h.mem', h.le, h.le', h.holds, h.holds'⟩

theorem merge_stuck : ∀ (k : Nat) {fl : FreeLists} {j q : Nat}, Stuck fl i o i' o' →
    Fits N ((j, 2 ^ q) :: blocks fl) → q + k ≤ maxOrder →
    Stuck (merge N fl j q k).1 i o i' o'
  | 0, _, _, _, h, _, _ => h
  | k + 1, fl, j, q, h, hfit, hk => by
    by_cases hb : buddy j q < N ∧ buddy j q ∈ fl q
    · rw [merge_pos hb]
      exact merge_stuck k (h.drop hfit)
        (fun p => (merge_step_cover (by omega) hb.2 p).le.trans (hfit p)) (by omega)
    · rwa [merge_neg hb]

theorem freeSub_stuck (h : Stuck fl i o i' o') {j q : Nat} (hq : q ≤ maxOrder)
    (hfit : Fits N ((j, 2 ^ q) :: blocks fl)) : Stuck (freeSub N fl j q) i o i' o' :=
  (merge_stuck (maxOrder - q) h hfit (by omega)).put _ _

/-- **Stuck blocks stay**, whatever pages are given back. -/
theorem freePages_stuck : ∀ (k : Nat) {fl : FreeLists} {j n q : Nat}, Stuck fl i o i' o' →
    2 ^ q ∣ n → n < 2 ^ (maxOrder + 1) → Fits N ((j, n) :: blocks fl) →
    Stuck (freePages N k fl j n q) i o i' o'
  | 0, _, _, _, _, h, _, _, _ => h
  | k + 1, fl, j, n, q, h, hd, hn, hfit => by
    unfold freePages
    by_cases hle : n ≥ 2 ^ q
    · have hq : q ≤ maxOrder := Nat.lt_succ_iff.mp (lt_of_two_pow_le hle hn)
      rw [if_pos hle]
      by_cases hbit : n &&& 2 ^ q ≠ 0
      · rw [if_pos hbit]
        have hcut := hfit.cut hle
        refine freePages_stuck k (freeSub_stuck h hq hcut.tail) (dvd_sub_of_and hd hbit)
          (by omega) fun p => ?_
        have := hcut p
        rw [cover_cons] at this ⊢
        rwa [freeSub_cover hq]
      · rw [if_neg hbit]
        exact freePages_stuck k h (dvd_of_and hd (not_not.mp hbit)) hn hfit
    · rwa [if_neg hle]

/-! ## Freeing 18 pages -/

/-- The list of the block behind 18 pages in use at a multiple of 32. -/
theorem Canon.behind_18 (h : Canon fl) {p : Nat} (hp : 32 ∣ p)
    (huse : cover (blocks fl) (p + 17) = 0)
    (hfree : ∀ q, p + 18 ≤ q → q < p + 20 → 0 < cover (blocks fl) q) : p + 18 ∈ fl 1 := by
  obtain ⟨o, h1, h2, i, hi, h3, h4⟩ := h.exists_block 1 (a := p + 18) (by decide) (by omega) hfree
  have hal := h.aligned o h2 i hi
  obtain rfl : i = p + 18 := by
    by_contra hne
    have := cover_block h2 hi (q := p + 17) ⟨by omega, by omega⟩
    omega
  have ho : o < 2 := by
    by_contra hge
    have : 2 ^ 2 ∣ p + 18 := (Nat.pow_dvd_pow 2 (by omega)).trans hal
    omega
  obtain rfl : o = 1 := by omega
  exact hi

/-- **18 pages at a multiple of 32 are given back in two pieces**, the second of which starts 2
behind that multiple and is stuck. -/
theorem free_18_stuck (h : Canon fl) {p : Nat} (hp : 32 ∣ p)
    (hfit : Fits N ((p, 18) :: blocks fl))
    (hfree : ∀ q, p + 18 ≤ q → q < p + 20 → 0 < cover (blocks fl) q) :
    Stuck (freePages N 32 fl p 18 0) (p + 2) 4 (p + 18) 1 := by
  have huse : ∀ q, p ≤ q → q < p + 18 → cover (blocks fl) q = 0 := by
    intro q hq hq'
    have := hfit q
    rw [cover_cons, if_pos ⟨hq, hq'⟩] at this
    split_ifs at this <;> omega
  have hbehind := h.behind_18 hp (huse (p + 17) (by omega) (by omega)) hfree
  have hb1 : buddy p 1 = p + 2 := buddy_of_clear (clear_of_dvd (by omega))
  have hb18 : buddy (p + 18) 1 = p + 16 := by
    have : buddy (p + 16) 1 = p + 18 := buddy_of_clear (clear_of_dvd (by omega))
    rw [← this, buddy_buddy]
  have hb2 : buddy (p + 2) 4 = p + 18 := by
    refine buddy_of_clear ?_
    rw [← Bool.not_eq_true, testBit_iff_odd, Nat.odd_iff]
    omega
  have hne1 : buddy p 1 ∉ fl 1 := by
    rw [hb1]
    intro hm
    have := cover_head (by decide) hm
    have := huse (p + 2) (by omega) (by omega)
    omega
  have hne2 : buddy (p + 2) 4 ∉ put fl p 1 4 := by
    rw [hb2, put_of_ne fl p (by decide)]
    intro hm
    have := h.aligned 4 (by decide) _ hm
    omega
  have hfree18 : freePages N 32 fl p 18 0 = put (put fl p 1) (p + 2) 4 := by
    have : freePages N 32 fl p 18 0 = freeSub N (freeSub N fl p 1) (p + 2) 4 := rfl
    rw [this, freeSub_alone hne1, freeSub_alone hne2]
  rw [hfree18]
  refine ⟨?_, mem_put (mem_put hbehind), by decide, by decide, ?_, ?_⟩
  · rw [put_self]
    exact List.mem_cons_self
  · rw [hb2]
    omega
  · rw [hb18]
    omega

end Hurlex.Buddy
