import Hurlex.Mm.Buddy
import Hurlex.Lib.Segment

/-!
# Free lists as lists

What the buddy manager does, on the free lists alone: `FreeLists` gives the first pages of the free
blocks of each order, in list order. The operations follow the code; pointers, flags and counters
are gone.

Which pages the operations cover does not depend on how the blocks lie: `freeSub_cover`,
`allocSub_cover`, `freePages_cover` and `allocPages_cover` ask for no alignment.
-/

namespace Hurlex.Buddy

open Lib

/-- The first pages of the free blocks of each order. -/
abbrev FreeLists := Nat → List Nat

/-- The free blocks. -/
def blocks (fl : FreeLists) : List Seg :=
  (List.range (maxOrder + 1)).flatMap fun o => (fl o).map fun i => (i, 2 ^ o)

/-- Block `i` goes to the front of list `o`. -/
def put (fl : FreeLists) (i o : Nat) : FreeLists := Function.update fl o (i :: fl o)

/-- Block `i` leaves list `o`. -/
def drop (fl : FreeLists) (i o : Nat) : FreeLists := Function.update fl o ((fl o).erase i)

/-- `coalesce`. -/
def merge (N : Nat) (fl : FreeLists) (i o : Nat) : Nat → FreeLists × Nat × Nat
  | 0 => (fl, i, o)
  | k + 1 =>
    if buddy i o < N ∧ buddy i o ∈ fl o then
      merge N (drop fl (buddy i o) o) (mergeBase i o) (o + 1) k
    else (fl, i, o)

/-- `buddy_free_pages_sub`. -/
def freeSub (N : Nat) (fl : FreeLists) (i o : Nat) : FreeLists :=
  let r := merge N fl i o (maxOrder - o)
  put r.1 r.2.1 r.2.2

/-- `buddy_free_pages`, the loop. -/
def freePages (N : Nat) : Nat → FreeLists → Nat → Nat → Nat → FreeLists
  | 0, fl, _, _, _ => fl
  | k + 1, fl, i, n, o =>
    if n ≥ 2 ^ o then
      if n &&& 2 ^ o ≠ 0 then
        freePages N k (freeSub N fl i o) (i + 2 ^ o) (n - 2 ^ o) (o + 1)
      else freePages N k fl i n (o + 1)
    else fl

/-- The upper halves of the block at `i`, from order `o + k - 1` down to `o`. -/
def split (fl : FreeLists) (i o : Nat) : Nat → FreeLists
  | 0 => fl
  | k + 1 => split (put fl (i + 2 ^ (o + k)) (o + k)) i o k

/-- The order of the block `buddy_alloc_pages_sub` takes. -/
def pick (fl : FreeLists) (o : Nat) : Option Nat :=
  (List.range' o (maxOrder + 1 - o)).find? fun c => !(fl c).isEmpty

/-- `buddy_alloc_pages_sub`. -/
def allocSub (fl : FreeLists) (o : Nat) : Option (FreeLists × Nat) :=
  match pick fl o with
  | none => none
  | some c =>
    match fl c with
    | [] => none
    | i :: _ => some (split (drop fl i c) i o (c - o), i)

/-- The first of the orders `o, …, o + k` whose blocks have `n` pages, the last if none has. -/
def orderFrom (n o : Nat) : Nat → Nat
  | 0 => o
  | k + 1 => if n ≤ 2 ^ o then o else orderFrom n (o + 1) k

/-- The order of a request: the least whose blocks have `n` pages. -/
def orderOf (n : Nat) : Nat := orderFrom n 0 maxOrder

/-- `buddy_alloc_pages`, when the counter lets it through. -/
def allocPages (N : Nat) (fl : FreeLists) (n : Nat) : Option (FreeLists × Nat) :=
  (allocSub fl (orderOf n)).map fun r =>
    (freePages N 32 r.1 (r.2 + n) (2 ^ orderOf n - n) 0, r.2)

/-! ## Which blocks there are -/

section Blocks

variable {fl : FreeLists} {i o : Nat}

theorem put_self (fl : FreeLists) (i o : Nat) : put fl i o o = i :: fl o := Function.update_self ..

theorem put_of_ne {p : Nat} (fl : FreeLists) (i : Nat) (h : p ≠ o) : put fl i o p = fl p :=
  Function.update_of_ne h ..

/-- A block more leaves the others on their lists. -/
theorem mem_put {j p : Nat} (h : j ∈ fl p) : j ∈ put fl i o p := by
  by_cases hp : p = o
  · subst hp
    rw [put_self]
    exact List.mem_cons_of_mem _ h
  · rwa [put_of_ne fl i hp]

theorem mem_put_self (fl : FreeLists) (i o : Nat) : i ∈ put fl i o o := by
  rw [put_self]
  exact List.mem_cons_self

theorem mem_blocks {s : Seg} : s ∈ blocks fl ↔ ∃ o ≤ maxOrder, ∃ i ∈ fl o, s = (i, 2 ^ o) := by
  simp only [blocks, List.mem_flatMap, List.mem_range, List.mem_map, Nat.lt_succ_iff]
  constructor
  · rintro ⟨o, ho, i, hi, rfl⟩
    exact ⟨o, ho, i, hi, rfl⟩
  · rintro ⟨o, ho, i, hi, rfl⟩
    exact ⟨o, ho, i, hi, rfl⟩

theorem block_mem (ho : o ≤ maxOrder) (hi : i ∈ fl o) : (i, 2 ^ o) ∈ blocks fl :=
  mem_blocks.mpr ⟨o, ho, i, hi, rfl⟩

theorem block_first_mem (i o : Nat) : i ∈ Seg.cells (i, 2 ^ o) :=
  Seg.first_mem (s := (i, 2 ^ o)) (Nat.two_pow_pos o)

/-- Blocks that fit into `N` pages. -/
theorem block_le {N : Nat} (h : Fits N (blocks fl)) (ho : o ≤ maxOrder) (hi : i ∈ fl o) :
    i + 2 ^ o ≤ N :=
  h.bound (block_mem ho hi) (Nat.two_pow_pos o)

theorem block_lt {N : Nat} (h : Fits N (blocks fl)) (ho : o ≤ maxOrder) (hi : i ∈ fl o) : i < N :=
  (Nat.lt_add_of_pos_right (Nat.two_pow_pos o)).trans_le (block_le h ho hi)

/-- No order has larger blocks than the highest. -/
theorem size_le (ho : o ≤ maxOrder) : 2 ^ o ≤ 2 ^ maxOrder := Nat.pow_le_pow_right (by decide) ho

/-- One list of a family longer by one. -/
theorem flatMap_update_cons {f : Nat → Nat → Seg} {os : List Nat} (hnd : os.Nodup) (ho : o ∈ os) :
    (os.flatMap fun p => (Function.update fl o (i :: fl o) p).map (f p)).Perm
      (f o i :: os.flatMap fun p => (fl p).map (f p)) := by
  induction os with
  | nil => exact absurd ho List.not_mem_nil
  | cons p os ih =>
    obtain ⟨hp, hnd⟩ := List.nodup_cons.mp hnd
    rw [List.flatMap_cons, List.flatMap_cons]
    rcases List.mem_cons.mp ho with rfl | ho
    · have hrest : (os.flatMap fun p => (Function.update fl o (i :: fl o) p).map (f p)) =
          os.flatMap fun p => (fl p).map (f p) := by
        refine List.flatMap_congr fun q hq => ?_
        rw [Function.update_of_ne (ne_of_mem_of_not_mem hq hp)]
      rw [hrest, Function.update_self]
      rfl
    · rw [Function.update_of_ne (ne_of_mem_of_not_mem ho hp).symm]
      exact (List.Perm.append_left _ (ih hnd ho)).trans List.perm_middle

theorem blocks_put (ho : o ≤ maxOrder) :
    (blocks (put fl i o)).Perm ((i, 2 ^ o) :: blocks fl) :=
  flatMap_update_cons List.nodup_range (List.mem_range.mpr (Nat.lt_succ_of_le ho))

theorem cover_put (ho : o ≤ maxOrder) (p : Nat) :
    cover (blocks (put fl i o)) p = cover ((i, 2 ^ o) :: blocks fl) p :=
  cover_perm (blocks_put ho) p

theorem put_drop_perm (hi : i ∈ fl o) (p : Nat) : (put (drop fl i o) i o p).Perm (fl p) := by
  unfold put drop
  by_cases hp : p = o
  · subst hp
    rw [Function.update_self, Function.update_self]
    exact (List.perm_cons_erase hi).symm
  · rw [Function.update_of_ne hp, Function.update_of_ne hp]

theorem blocks_perm {fl' : FreeLists} (h : ∀ p, (fl p).Perm (fl' p)) :
    (blocks fl).Perm (blocks fl') :=
  List.Perm.flatMap_left _ fun p _ => (h p).map _

theorem cover_drop (ho : o ≤ maxOrder) (hi : i ∈ fl o) (p : Nat) :
    cover (blocks fl) p = cover ((i, 2 ^ o) :: blocks (drop fl i o)) p := by
  rw [← cover_put ho]
  exact (cover_perm (blocks_perm (put_drop_perm hi)) p).symm

/-- A block among others, cut into halves. -/
theorem cover_halves (a o : Nat) (l : List Seg) (p : Nat) :
    cover ((a, 2 ^ (o + 1)) :: l) p = cover ((a + 2 ^ o, 2 ^ o) :: (a, 2 ^ o) :: l) p := by
  have hhalf : 2 ^ (o + 1) - 2 ^ o = 2 ^ o := by
    rw [pow_succ, Nat.mul_two, Nat.add_sub_cancel]
  rw [cover_cut_cons (Nat.pow_le_pow_right Nat.two_pos o.le_succ), hhalf]

/-- A block covers its pages. -/
theorem cover_block {q : Nat} (ho : o ≤ maxOrder) (hi : i ∈ fl o) (hq : i ≤ q ∧ q < i + 2 ^ o) :
    0 < cover (blocks fl) q :=
  cover_pos.mpr ⟨(i, 2 ^ o), block_mem ho hi, Seg.mem_cells.mpr hq⟩

theorem cover_head (ho : o ≤ maxOrder) (hi : i ∈ fl o) : 0 < cover (blocks fl) i :=
  cover_block ho hi (Seg.mem_cells.mp (block_first_mem i o))

end Blocks

/-! ## Coverage -/

section Cover

variable {N : Nat} {fl fl' : FreeLists}

theorem merge_pos {k i o : Nat} (h : buddy i o < N ∧ buddy i o ∈ fl o) :
    merge N fl i o (k + 1) = merge N (drop fl (buddy i o) o) (mergeBase i o) (o + 1) k :=
  if_pos h

theorem merge_neg {k i o : Nat} (h : ¬ (buddy i o < N ∧ buddy i o ∈ fl o)) :
    merge N fl i o (k + 1) = (fl, i, o) :=
  if_neg h

/-- Merging with a free buddy leaves the pages of the blocks and of the block in hand as they
were. -/
theorem merge_step_cover {i o : Nat} (ho : o ≤ maxOrder) (hb : buddy i o ∈ fl o) (p : Nat) :
    cover ((mergeBase i o, 2 ^ (o + 1)) :: blocks (drop fl (buddy i o) o)) p =
      cover ((i, 2 ^ o) :: blocks fl) p := by
  have hd := cover_drop ho hb p
  rw [cover_halves]
  simp only [cover_cons] at hd ⊢
  generalize cover (blocks (drop fl (buddy i o) o)) p = rest at hd ⊢
  rcases mergeBase_cases i o with ⟨hm, hb⟩ | ⟨hm, hb⟩
  · rw [hb] at hd
    rw [hm]
    omega
  · rw [hb] at hd
    rw [hm, hb]
    omega

/-- Merging leaves the pages as they were. -/
theorem merge_cover (p : Nat) : ∀ (k : Nat) (fl : FreeLists) (i o : Nat), o + k ≤ maxOrder →
    cover (((merge N fl i o k).2.1, 2 ^ (merge N fl i o k).2.2) :: blocks (merge N fl i o k).1) p =
        cover ((i, 2 ^ o) :: blocks fl) p ∧
      (merge N fl i o k).2.2 ≤ o + k
  | 0, fl, i, o, _ => ⟨rfl, le_rfl⟩
  | k + 1, fl, i, o, hk => by
    by_cases h : buddy i o < N ∧ buddy i o ∈ fl o
    · rw [merge_pos h]
      obtain ⟨h1, h2⟩ := merge_cover p k (drop fl (buddy i o) o) (mergeBase i o) (o + 1) (by omega)
      exact ⟨h1.trans (merge_step_cover (by omega) h.2 p), by omega⟩
    · rw [merge_neg h]
      exact ⟨rfl, Nat.le_add_right _ _⟩

theorem freeSub_cover {i o : Nat} (ho : o ≤ maxOrder) (p : Nat) :
    cover (blocks (freeSub N fl i o)) p = cover ((i, 2 ^ o) :: blocks fl) p := by
  obtain ⟨h1, h2⟩ := merge_cover (N := N) p (maxOrder - o) fl i o (by omega)
  unfold freeSub
  rw [cover_put (by omega)]
  exact h1

/-- The pages given back are covered, and no others anew. -/
theorem freePages_cover (p : Nat) : ∀ (k : Nat) (fl : FreeLists) (i n o : Nat), 2 ^ o ∣ n →
    n < 2 ^ (maxOrder + 1) → n < 2 ^ (o + k) →
    cover (blocks (freePages N k fl i n o)) p = cover ((i, n) :: blocks fl) p
  | 0, fl, i, n, o, hd, _, hk => by
    obtain rfl : n = 0 := Nat.eq_zero_of_dvd_of_lt hd hk
    simp [freePages, cover_cons]
  | k + 1, fl, i, n, o, hd, hn, hk => by
    unfold freePages
    have hk' : o + 1 + k = o + (k + 1) := by omega
    by_cases hle : n ≥ 2 ^ o
    · rw [if_pos hle]
      have ho : o ≤ maxOrder := Nat.lt_succ_iff.mp (lt_of_two_pow_le hle hn)
      by_cases hbit : n &&& 2 ^ o ≠ 0
      · rw [if_pos hbit]
        have hd' := dvd_sub_of_and hd hbit
        rw [freePages_cover p k _ _ _ (o + 1) hd' (by omega) (by rw [hk']; omega), cover_cons,
          freeSub_cover ho, ← cover_cons, ← cover_cut_cons hle]
      · rw [if_neg hbit]
        exact freePages_cover p k _ _ _ (o + 1) (dvd_of_and hd (not_not.mp hbit)) hn
          (by rw [hk']; exact hk)
    · rw [if_neg hle]
      obtain rfl : n = 0 := Nat.eq_zero_of_dvd_of_lt hd (by omega)
      simp [cover_cons]

theorem split_cover (p : Nat) : ∀ (k : Nat) (fl : FreeLists) (i o : Nat), o + k ≤ maxOrder + 1 →
    cover ((i, 2 ^ o) :: blocks (split fl i o k)) p = cover ((i, 2 ^ (o + k)) :: blocks fl) p
  | 0, _, _, _, _ => rfl
  | k + 1, fl, i, o, hk => by
    unfold split
    rw [split_cover p k _ i o (by omega), cover_cons, cover_put (by omega), ← Nat.add_assoc,
      cover_halves]
    simp only [cover_cons]
    omega

/-- The order picked is the least with a block. -/
theorem pick_some {o c : Nat} (h : pick fl o = some c) : o ≤ c ∧ c ≤ maxOrder ∧ fl c ≠ [] := by
  have h1 := List.mem_of_find?_eq_some h
  have h2 := List.find?_some h
  rw [List.mem_range'_1] at h1
  refine ⟨h1.1, by omega, ?_⟩
  rintro e
  simp [e] at h2

/-- It is picked because the lists below are empty. -/
theorem pick_least {o c : Nat} (h : pick fl o = some c) :
    ∀ c', o ≤ c' → c' < c → fl c' = [] := by
  intro c' h1 h2
  obtain ⟨-, -, hno⟩ := List.find?_range'_eq_some.mp h
  simpa using hno c' h1 h2

theorem pick_eq_none {o : Nat} (h : pick fl o = none) :
    ∀ c, o ≤ c → c ≤ maxOrder → fl c = [] := by
  intro c h1 h2
  have hno := List.find?_range'_eq_none.mp h c h1 (by omega)
  simpa using hno

/-- What `allocSub` takes: the first block of the order picked, cut down. -/
theorem allocSub_some {o i : Nat} (h : allocSub fl o = some (fl', i)) :
    ∃ c is, pick fl o = some c ∧ fl c = i :: is ∧ fl' = split (drop fl i c) i o (c - o) := by
  unfold allocSub at h
  split at h
  · cases h
  · rename_i c hc
    split at h
    · cases h
    · rename_i j is hj
      cases h
      exact ⟨c, is, hc, hj, rfl⟩

theorem allocSub_none_iff {o : Nat} : allocSub fl o = none ↔ pick fl o = none := by
  unfold allocSub
  cases hp : pick fl o with
  | none => simp
  | some c =>
    obtain ⟨-, -, hne⟩ := pick_some hp
    cases hc : fl c with
    | nil => exact absurd hc hne
    | cons i is => simp [hc]

theorem orderFrom_le (n : Nat) : ∀ (k o : Nat), orderFrom n o k ≤ o + k
  | 0, o => le_rfl
  | k + 1, o => by
    unfold orderFrom
    split
    · omega
    · have := orderFrom_le n k (o + 1)
      omega

theorem le_orderFrom {n : Nat} : ∀ (k o : Nat), n ≤ 2 ^ (o + k) → n ≤ 2 ^ orderFrom n o k
  | 0, _, h => h
  | k + 1, o, h => by
    unfold orderFrom
    split
    · assumption
    · exact le_orderFrom k (o + 1) (by rwa [Nat.add_right_comm])

theorem lt_of_lt_orderFrom {n o' : Nat} : ∀ (k o : Nat), o ≤ o' → o' < orderFrom n o k → 2 ^ o' < n
  | 0, _, hle, hlt => absurd hlt (Nat.not_lt.2 hle)
  | k + 1, o, hle, hlt => by
    unfold orderFrom at hlt
    split at hlt
    · exact absurd hlt (Nat.not_lt.2 hle)
    · rename_i hn
      obtain rfl | hne := Nat.eq_or_lt_of_le hle
      · exact Nat.lt_of_not_le hn
      · exact lt_of_lt_orderFrom k (o + 1) hne hlt

theorem orderOf_le (n : Nat) : orderOf n ≤ maxOrder := by
  simpa [orderOf] using orderFrom_le n maxOrder 0

theorem le_orderOf {n : Nat} (h : n ≤ 2 ^ maxOrder) : n ≤ 2 ^ orderOf n :=
  le_orderFrom maxOrder 0 (by rwa [Nat.zero_add])

/-- No lower order will do. -/
theorem lt_of_lt_orderOf {n o : Nat} (h : o < orderOf n) : 2 ^ o < n :=
  lt_of_lt_orderFrom maxOrder 0 (Nat.zero_le o) h

theorem allocSub_cover {o i : Nat} (h : allocSub fl o = some (fl', i)) (p : Nat) :
    cover ((i, 2 ^ o) :: blocks fl') p = cover (blocks fl) p := by
  obtain ⟨c, is, hc, hi, rfl⟩ := allocSub_some h
  obtain ⟨h1, h2, -⟩ := pick_some hc
  have hoc : o + (c - o) = c := by omega
  rw [split_cover p _ _ _ _ (by omega), hoc, ← cover_drop h2 (by rw [hi]; exact List.mem_cons_self)]

/-- What `allocPages` does: a block comes off, its tail goes back. -/
theorem allocPages_some {n i : Nat} (h : allocPages N fl n = some (fl', i)) :
    ∃ fl₁, allocSub fl (orderOf n) = some (fl₁, i) ∧
      fl' = freePages N 32 fl₁ (i + n) (2 ^ orderOf n - n) 0 := by
  unfold allocPages at h
  rw [Option.map_eq_some_iff] at h
  obtain ⟨⟨fl₁, j⟩, h1, h2⟩ := h
  cases h2
  exact ⟨fl₁, h1, rfl⟩

/-- The tail of a block is shorter than the blocks of the highest order. -/
theorem tail_lt {n : Nat} : 2 ^ orderOf n - n < 2 ^ (maxOrder + 1) :=
  (Nat.sub_le _ _).trans_lt (Nat.pow_lt_pow_right (by decide) (Nat.lt_succ_of_le (orderOf_le n)))

/-- **An allocation takes exactly `n` pages.** -/
theorem allocPages_cover {n i : Nat} (hn : n ≤ 2 ^ maxOrder)
    (h : allocPages N fl n = some (fl', i)) (p : Nat) :
    cover ((i, n) :: blocks fl') p = cover (blocks fl) p := by
  obtain ⟨fl₁, h1, rfl⟩ := allocPages_some h
  have hlt : 2 ^ orderOf n - n < 2 ^ (0 + 32) :=
    tail_lt.trans (Nat.pow_lt_pow_right (by decide) (by decide))
  rw [cover_cons, freePages_cover p 32 fl₁ _ _ 0 (by simp) tail_lt hlt, ← allocSub_cover h1 p,
    cover_cut_cons (le_orderOf hn)]
  simp only [cover_cons]
  omega

end Cover

end Hurlex.Buddy
