import Hurlex.Mm.BuddyLists

/-!
# Aligned and coalesced free lists

`Canon fl`: every block starts at a multiple of its size, and no two buddies are both free. Unlike
what the blocks cover, this is not kept by every operation: taking a block and giving back its tail
keep it (`allocPages_canon`), giving back an aligned block keeps it (`freeSub_canon`), giving back
the pieces of an allocation of any other size need not.

`Canon.exists_block` is what it is good for: a free aligned range lies in one block. So the lists of
a memory with no live allocation are determined by the number of its pages (`Canon.mem_iff`,
`Canon.mem_top`).
-/

namespace Hurlex.Buddy

open Lib

/-- Aligned and coalesced. -/
structure Canon (fl : FreeLists) : Prop where
  aligned : ∀ o ≤ maxOrder, ∀ i ∈ fl o, 2 ^ o ∣ i
  coalesced : ∀ o < maxOrder, ∀ i ∈ fl o, buddy i o ∉ fl o

section Canon

variable {N : Nat} {fl fl' : FreeLists} {i o : Nat}

theorem buddy_ne (i o : Nat) : buddy i o ≠ i := by
  have := Nat.two_pow_pos o
  rcases mergeBase_cases i o with ⟨-, hb⟩ | ⟨-, hb⟩ <;> omega

theorem mem_of_mem_drop {j p : Nat} (h : j ∈ drop fl i o p) : j ∈ fl p := by
  unfold drop at h
  by_cases hp : p = o
  · subst hp
    rw [Function.update_self] at h
    exact List.mem_of_mem_erase h
  · rwa [Function.update_of_ne hp] at h

/-- A block whose buddy is not free goes on its list. -/
theorem Canon.put (h : Canon fl) (ha : 2 ^ o ∣ i) (hb : o < maxOrder → buddy i o ∉ fl o) :
    Canon (put fl i o) := by
  constructor
  · intro p hp j hj
    by_cases hpo : p = o
    · subst hpo
      rw [put_self] at hj
      rcases List.mem_cons.mp hj with rfl | hj
      · exact ha
      · exact h.aligned p hp j hj
    · rw [put_of_ne fl i hpo] at hj
      exact h.aligned p hp j hj
  · intro p hp j hj hbj
    by_cases hpo : p = o
    · subst hpo
      rw [put_self] at hj hbj
      rcases List.mem_cons.mp hj with rfl | hj
      · rcases List.mem_cons.mp hbj with e | hbj
        · exact buddy_ne _ _ e
        · exact hb hp hbj
      · rcases List.mem_cons.mp hbj with e | hbj
        · exact hb hp (by rwa [← e, buddy_buddy])
        · exact h.coalesced p hp j hj hbj
    · rw [put_of_ne fl i hpo] at hj hbj
      exact h.coalesced p hp j hj hbj

theorem Canon.drop (h : Canon fl) (i o : Nat) : Canon (drop fl i o) :=
  ⟨fun p hp j hj => h.aligned p hp j (mem_of_mem_drop hj),
    fun p hp j hj hb => h.coalesced p hp j (mem_of_mem_drop hj) (mem_of_mem_drop hb)⟩

/-! ## Giving back an aligned block -/

/-- Merging ends at an aligned block whose buddy is not free. -/
theorem merge_canon : ∀ (k : Nat) {fl : FreeLists} {i o : Nat}, Canon fl →
    (∀ p ≤ maxOrder, ∀ j ∈ fl p, j < N) → 2 ^ o ∣ i → o + k = maxOrder →
    Canon (merge N fl i o k).1 ∧ 2 ^ (merge N fl i o k).2.2 ∣ (merge N fl i o k).2.1 ∧
      ((merge N fl i o k).2.2 < maxOrder →
        buddy (merge N fl i o k).2.1 (merge N fl i o k).2.2 ∉
          (merge N fl i o k).1 (merge N fl i o k).2.2)
  | 0, fl, i, o, h, _, ha, hk => by
    refine ⟨h, ha, fun hlt => ?_⟩
    have hlt : o < maxOrder := hlt
    omega
  | k + 1, fl, i, o, h, hin, ha, hk => by
    by_cases hb : buddy i o < N ∧ buddy i o ∈ fl o
    · rw [merge_pos hb]
      exact merge_canon k (h.drop _ _) (fun p hp j hj => hin p hp j (mem_of_mem_drop hj))
        (mergeBase_aligned ha) (by omega)
    · rw [merge_neg hb]
      exact ⟨h, ha, fun hlt hm => hb ⟨hin o (Nat.le_of_lt hlt) _ hm, hm⟩⟩

/-- **Giving back an aligned block keeps the lists aligned and coalesced.** -/
theorem freeSub_canon (h : Canon fl) (hin : ∀ p ≤ maxOrder, ∀ j ∈ fl p, j < N) (ha : 2 ^ o ∣ i)
    (ho : o ≤ maxOrder) : Canon (freeSub N fl i o) := by
  obtain ⟨h1, h2, h3⟩ := merge_canon (maxOrder - o) h hin ha (by omega)
  exact h1.put h2 h3

/-- A block whose buddy is not free is not merged. -/
theorem freeSub_alone (hb : buddy i o ∉ fl o) : freeSub N fl i o = put fl i o := by
  unfold freeSub
  cases maxOrder - o with
  | zero => rfl
  | succ k => rw [merge_neg fun h => hb h.2]

/-! ## Taking a block -/

theorem split_canon : ∀ (k : Nat) {fl : FreeLists}, Canon fl → o + k ≤ maxOrder →
    2 ^ (o + k) ∣ i → Fits N ((i, 2 ^ (o + k)) :: blocks fl) → Canon (split fl i o k)
  | 0, _, h, _, _, _ => h
  | k + 1, fl, h, hk, ha, hfit => by
    have ha₂ : 2 ^ (o + k + 1) ∣ i := ha
    have ha' : 2 ^ (o + k) ∣ i := (Nat.pow_dvd_pow 2 (Nat.le_succ _)).trans ha₂
    -- the block's own first page is the buddy of the upper half
    have hbuddy : buddy (i + 2 ^ (o + k)) (o + k) = i := by
      rw [← buddy_of_clear (clear_of_dvd ha₂), buddy_buddy]
    have hnew : i ∉ fl (o + k) := fun hm =>
      hfit.notMem (block_mem (by omega) hm) (block_first_mem i _) (block_first_mem i _)
    refine split_canon k (h.put ((Nat.dvd_add_right ha').mpr dvd_rfl) fun _ => ?_) (by omega) ha'
      fun p => ?_
    · rwa [hbuddy]
    · have hf := hfit p
      rw [← Nat.add_assoc, cover_halves] at hf
      rw [cover_cons, cover_put (by omega : o + k ≤ maxOrder)]
      simp only [cover_cons] at hf ⊢
      omega

theorem allocSub_canon (h : Canon fl) (hfit : Fits N (blocks fl))
    (ha : allocSub fl o = some (fl', i)) : Canon fl' ∧ 2 ^ o ∣ i := by
  obtain ⟨c, is, hp, hc, rfl⟩ := allocSub_some ha
  obtain ⟨hoc, hco, -⟩ := pick_some hp
  have hmem : i ∈ fl c := hc ▸ List.mem_cons_self
  have hal := h.aligned c hco i hmem
  have hc' : o + (c - o) = c := Nat.add_sub_cancel' hoc
  have hfit' : Fits N ((i, 2 ^ (o + (c - o))) :: blocks (Buddy.drop fl i c)) := fun p => by
    rw [hc', ← cover_drop hco hmem]
    exact hfit p
  exact ⟨split_canon (c - o) (h.drop i c) (by omega) (by rwa [hc']) hfit',
    (Nat.pow_dvd_pow 2 hoc).trans hal⟩

/-! ## Giving back a tail -/

/-- The pieces of a run, one for each bit of its length, put on their lists. -/
def putBits : Nat → FreeLists → Nat → Nat → Nat → FreeLists
  | 0, fl, _, _, _ => fl
  | k + 1, fl, i, n, o =>
    if n ≥ 2 ^ o then
      if n &&& 2 ^ o ≠ 0 then putBits k (put fl i o) (i + 2 ^ o) (n - 2 ^ o) (o + 1)
      else putBits k fl i n (o + 1)
    else fl

/-- Multiples of one number are apart by it. -/
theorem add_le_of_dvd {d a b : Nat} (ha : d ∣ a) (hb : d ∣ b) (h : a < b) : a + d ≤ b := by
  obtain ⟨x, rfl⟩ := ha
  obtain ⟨y, rfl⟩ := hb
  have hxy : x + 1 ≤ y := Nat.lt_of_mul_lt_mul_left h
  calc d * x + d = d * (x + 1) := (Nat.mul_succ d x).symm
    _ ≤ d * y := Nat.mul_le_mul_left d hxy

/-- The tail behind the `m` pages in use at the start `p` of an aligned block goes back in pieces
none of which has a free buddy: that buddy starts among the pages in use. -/
theorem freePages_tail {p m O : Nat} (hm : 0 < m) (hp : 2 ^ O ∣ p) (hO : O ≤ maxOrder) :
    ∀ (k : Nat) {fl : FreeLists} {b n o : Nat}, Canon fl → 2 ^ o ∣ n → 2 ^ O ∣ b + n → n < 2 ^ O →
      p + m ≤ b → b < p + m + 2 ^ o → (∀ q, p ≤ q → q < p + m → cover (blocks fl) q = 0) →
      freePages N k fl b n o = putBits k fl b n o ∧ Canon (putBits k fl b n o)
  | 0, fl, b, n, o, h, _, _, _, _, _, _ => ⟨rfl, h⟩
  | k + 1, fl, b, n, o, h, hd, hE, hn, hb, hb', huse => by
    have hpos := Nat.two_pow_pos o
    have h2o : 2 ^ (o + 1) = 2 ^ o + 2 ^ o := by rw [pow_succ]; omega
    unfold freePages putBits
    by_cases hle : n ≥ 2 ^ o
    · rw [if_pos hle, if_pos hle]
      have hoO : o < O := lt_of_two_pow_le hle hn
      by_cases hbit : n &&& 2 ^ o ≠ 0
      · rw [if_pos hbit, if_pos hbit]
        have hd' := dvd_sub_of_and hd hbit
        have hdO : 2 ^ (o + 1) ∣ 2 ^ O := Nat.pow_dvd_pow 2 hoO
        -- the piece starts half way between two multiples of `2 ^ (o + 1)`
        have hbo : 2 ^ (o + 1) ∣ b + 2 ^ o := by
          have hsum : b + n = b + 2 ^ o + (n - 2 ^ o) := by omega
          have := hdO.trans hE
          rw [hsum] at this
          exact (Nat.dvd_add_left hd').mp this
        obtain ⟨a, rfl⟩ : ∃ a, b = a + 2 ^ o := ⟨b - 2 ^ o, by
          have := Nat.le_of_dvd (by omega) hbo
          omega⟩
        have ha : 2 ^ (o + 1) ∣ a := by
          rw [Nat.add_assoc, ← h2o] at hbo
          exact (Nat.dvd_add_left dvd_rfl).mp hbo
        have hbuddy : buddy (a + 2 ^ o) o = a := by
          rw [← buddy_of_clear (clear_of_dvd ha), buddy_buddy]
        have hpa : p ≤ a := by
          by_contra hlt
          have := add_le_of_dvd ha (hdO.trans hp) (by omega)
          omega
        have hfree : buddy (a + 2 ^ o) o ∉ fl o := by
          rw [hbuddy]
          intro hm'
          have h1 := huse a hpa (by omega)
          have h2 := cover_head (by omega) hm'
          omega
        have hal : 2 ^ o ∣ a + 2 ^ o :=
          (Nat.dvd_add_left dvd_rfl).mpr ((Nat.pow_dvd_pow 2 (Nat.le_succ o)).trans ha)
        rw [freeSub_alone hfree]
        refine freePages_tail hm hp hO k (h.put hal fun _ => hfree) hd' ?_ (by omega) (by omega)
          (by omega) fun q h1 h2 => ?_
        · rwa [show a + 2 ^ o + 2 ^ o + (n - 2 ^ o) = a + 2 ^ o + n by omega]
        · rw [cover_put (by omega), cover_cons, huse q h1 h2, if_neg (by simp only; omega)]
      · rw [if_neg hbit, if_neg hbit]
        exact freePages_tail hm hp hO k h (dvd_of_and hd (not_not.mp hbit)) hE hn hb (by omega) huse
    · rw [if_neg hle, if_neg hle]
      exact ⟨rfl, h⟩

/-- **An allocation keeps the lists aligned and coalesced**, and its tail is not merged. -/
theorem allocPages_canon {n : Nat} (h : Canon fl) (hfit : Fits N (blocks fl)) (hn : 0 < n)
    (hn' : n ≤ 2 ^ maxOrder) (ha : allocPages N fl n = some (fl', i)) :
    Canon fl' ∧ 2 ^ orderOf n ∣ i ∧ ∃ fl₁, allocSub fl (orderOf n) = some (fl₁, i) ∧
      fl' = putBits 32 fl₁ (i + n) (2 ^ orderOf n - n) 0 := by
  obtain ⟨fl₁, h1, rfl⟩ := allocPages_some ha
  obtain ⟨hc, hal⟩ := allocSub_canon h hfit h1
  have hle := le_orderOf hn'
  obtain ⟨e1, e2⟩ := freePages_tail (N := N) hn hal (orderOf_le n) 32 hc
    (by simp : 2 ^ 0 ∣ 2 ^ orderOf n - n)
    (by rw [Nat.add_assoc, Nat.add_sub_cancel' hle]; exact (Nat.dvd_add_right hal).mpr dvd_rfl)
    (by omega) le_rfl (by omega) fun q hq hq' => by
      have h2 := allocSub_cover h1 q
      have h3 := hfit q
      rw [cover_cons, if_pos (by simp only; omega)] at h2
      split_ifs at h3 <;> omega
  rw [e1]
  exact ⟨e2, hal, fl₁, h1, rfl⟩

/-! ## Free ranges and blocks -/

/-- **A free aligned range lies in one block.** -/
theorem Canon.exists_block (h : Canon fl) : ∀ (o : Nat) {a : Nat}, o ≤ maxOrder → 2 ^ o ∣ a →
    (∀ q, a ≤ q → q < a + 2 ^ o → 0 < cover (blocks fl) q) →
    ∃ o', o ≤ o' ∧ o' ≤ maxOrder ∧ ∃ i ∈ fl o', i ≤ a ∧ a + 2 ^ o ≤ i + 2 ^ o'
  | 0, a, _, _, hc => by
    obtain ⟨s, hs, hq⟩ := cover_pos.mp (hc a le_rfl (by simp))
    obtain ⟨o', ho', i, hi, rfl⟩ := mem_blocks.mp hs
    rw [Seg.mem_cells] at hq
    exact ⟨o', Nat.zero_le _, ho', i, hi, hq.1, hq.2⟩
  | o + 1, a, ho, ha, hc => by
    have hpos := Nat.two_pow_pos o
    have h2o : 2 ^ (o + 1) = 2 ^ o + 2 ^ o := by rw [pow_succ]; omega
    have ha' : 2 ^ o ∣ a := (Nat.pow_dvd_pow 2 (Nat.le_succ o)).trans ha
    obtain ⟨o₁, l₁, u₁, i₁, m₁, x₁, y₁⟩ := h.exists_block o (by omega) ha'
      fun q hq hq' => hc q hq (by omega)
    obtain ⟨o₂, l₂, u₂, i₂, m₂, x₂, y₂⟩ := h.exists_block o (a := a + 2 ^ o) (by omega)
      ((Nat.dvd_add_left dvd_rfl).mpr ha') fun q hq hq' => hc q (by omega) (by omega)
    by_cases h1 : o + 1 ≤ o₁
    · -- the block that holds the lower half holds both
      have hd : 2 ^ (o + 1) ∣ i₁ + 2 ^ o₁ := (Nat.dvd_add_right
        ((Nat.pow_dvd_pow 2 h1).trans (h.aligned o₁ u₁ i₁ m₁))).mpr (Nat.pow_dvd_pow 2 h1)
      exact ⟨o₁, h1, u₁, i₁, m₁, x₁, add_le_of_dvd ha hd (by omega)⟩
    · by_cases h2 : o + 1 ≤ o₂
      · have hd := (Nat.pow_dvd_pow 2 h2).trans (h.aligned o₂ u₂ i₂ m₂)
        refine ⟨o₂, h2, u₂, i₂, m₂, ?_, by omega⟩
        by_contra hlt
        have := add_le_of_dvd ha hd (by omega)
        omega
      · -- two blocks of order `o`: buddies, both free
        obtain rfl : o₁ = o := by omega
        obtain rfl : o₂ = o₁ := by omega
        obtain rfl : i₁ = a := by omega
        obtain rfl : i₂ = i₁ + 2 ^ o₂ := by omega
        refine absurd ?_ (h.coalesced o₂ (by omega) i₁ m₁)
        rwa [buddy_of_clear (clear_of_dvd ha)]

end Canon

end Hurlex.Buddy
