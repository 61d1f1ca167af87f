import Hurlex.Mm.BuddyCanon

/-!
# Numbers of free blocks

The free lists of a memory with no live allocation, aligned and coalesced, are determined by the
number of its pages (`Canon.mem_iff`, `Canon.mem_top`). How many blocks of each order an
allocation leaves does not depend on where the blocks lie, and can be computed from how many there
were: `allocSub_counts` and `allocPages_counts`.
-/

namespace Hurlex.Buddy

open Lib

section Canon

variable {N : Nat} {fl fl' : FreeLists} {i o : Nat}

theorem nodup_of_fits (h : Fits N (blocks fl)) (ho : o ≤ maxOrder) : (fl o).Nodup := by
  have hsub : ((fl o).map fun i => (i, 2 ^ o)).Sublist (blocks fl) :=
    List.sublist_flatten_of_mem
      (List.mem_map.mpr ⟨o, List.mem_range.mpr (Nat.lt_succ_of_le ho), rfl⟩)
  have hdis := (pairwise_disjoint_of_cover_le_one (l := blocks fl) fun p => by
    have := h p
    split_ifs at this <;> omega).sublist hsub
  rw [List.pairwise_map] at hdis
  refine hdis.imp fun {i j} hd e => ?_
  subst e
  exact Set.disjoint_left.mp hd (block_first_mem i o) (block_first_mem i o)

/-- Blocks of two orders that share a page. -/
theorem order_unique_of_fits {o' i' p : Nat} (h : Fits N (blocks fl)) (ho : o ≤ maxOrder)
    (ho' : o' ≤ maxOrder) (hi : i ∈ fl o) (hi' : i' ∈ fl o') (h1 : i ≤ p ∧ p < i + 2 ^ o)
    (h2 : i' ≤ p ∧ p < i' + 2 ^ o') : o = o' := by
  by_contra hne
  have hc := h p
  rw [cover_drop ho hi, cover_cons, if_pos h1] at hc
  have hmem : i' ∈ drop fl i o o' := by
    unfold drop
    rwa [Function.update_of_ne (Ne.symm hne)]
  have hpos := cover_block ho' hmem h2
  split_ifs at hc <;> omega

/-- The blocks below the highest order: at most one of each, where the memory ends. -/
theorem Canon.mem_iff (h : Canon fl) (he : Exact N (blocks fl)) (ho : o < maxOrder) :
    i ∈ fl o ↔ 2 ^ (o + 1) ∣ i ∧ i + 2 ^ o ≤ N ∧ N < i + 2 ^ (o + 1) := by
  have hfit : Fits N (blocks fl) := fun p => (he p).le
  have hpos := Nat.two_pow_pos o
  have h2o : 2 ^ (o + 1) = 2 ^ o + 2 ^ o := by rw [pow_succ]; omega
  have hcov : ∀ a, a + 2 ^ o ≤ N → ∀ q, a ≤ q → q < a + 2 ^ o → 0 < cover (blocks fl) q := by
    intro a ha q _ hq
    rw [he q, if_pos (by omega)]
    omega
  constructor
  · intro hi
    have hal := h.aligned o (by omega) i hi
    have hin : i + 2 ^ o ≤ N := block_le hfit (by omega) hi
    -- a buddy inside the memory would be free: alone, or in a block that holds both
    have hout : N < buddy i o + 2 ^ o := by
      by_contra hle
      obtain ⟨o', h1, h2, j, hj, h3, h4⟩ := h.exists_block o (by omega) (buddy_aligned hal)
        (hcov _ (by omega))
      rcases Nat.eq_or_lt_of_le h1 with rfl | h1
      · obtain rfl : j = buddy i o := by omega
        exact h.coalesced o ho i hi hj
      · have hm : 2 ^ (o + 1) ∣ mergeBase i o := mergeBase_aligned hal
        have hj1 : 2 ^ (o + 1) ∣ j := (Nat.pow_dvd_pow 2 h1).trans (h.aligned o' h2 j hj)
        have hj2 : 2 ^ (o + 1) ∣ j + 2 ^ o' := (Nat.dvd_add_right hj1).mpr (Nat.pow_dvd_pow 2 h1)
        have hor := mergeBase_cases i o
        have hjm : j ≤ mergeBase i o := by
          by_contra hlt
          have := add_le_of_dvd hm hj1 (by omega)
          omega
        have hmj : mergeBase i o + 2 ^ (o + 1) ≤ j + 2 ^ o' := add_le_of_dvd hm hj2 (by omega)
        have := order_unique_of_fits (p := i) hfit (by omega) h2 hi hj (by omega) (by omega)
        omega
    rcases mergeBase_cases i o with ⟨hm, hb⟩ | ⟨hm, hb⟩
    · exact ⟨hm ▸ mergeBase_aligned hal, hin, by omega⟩
    · omega
  · rintro ⟨hd, hin, hlt⟩
    have hal : 2 ^ o ∣ i := (Nat.pow_dvd_pow 2 (Nat.le_succ o)).trans hd
    obtain ⟨o', h1, h2, j, hj, h3, h4⟩ := h.exists_block o (by omega) hal (hcov i hin)
    have hjN : j + 2 ^ o' ≤ N := block_le hfit h2 hj
    rcases Nat.eq_or_lt_of_le h1 with rfl | h1
    · obtain rfl : j = i := by omega
      exact hj
    · have hj1 : 2 ^ (o + 1) ∣ j := (Nat.pow_dvd_pow 2 h1).trans (h.aligned o' h2 j hj)
      have hj2 : 2 ^ (o + 1) ∣ j + 2 ^ o' := (Nat.dvd_add_right hj1).mpr (Nat.pow_dvd_pow 2 h1)
      have := add_le_of_dvd hd hj2 (by omega)
      omega

/-- The blocks of the highest order: all that fit. -/
theorem Canon.mem_top (h : Canon fl) (he : Exact N (blocks fl)) :
    i ∈ fl maxOrder ↔ 2 ^ maxOrder ∣ i ∧ i + 2 ^ maxOrder ≤ N := by
  constructor
  · exact fun hi => ⟨h.aligned _ le_rfl i hi, block_le (fun p => (he p).le) le_rfl hi⟩
  · rintro ⟨hd, hin⟩
    obtain ⟨o', h1, h2, j, hj, h3, h4⟩ := h.exists_block maxOrder le_rfl hd fun q _ hq => by
      rw [he q, if_pos (by omega)]
      omega
    obtain rfl : o' = maxOrder := by omega
    obtain rfl : j = i := by omega
    exact hj

/-- The number of blocks of an order is the memory size's bit. -/
theorem Canon.length_eq (h : Canon fl) (he : Exact N (blocks fl)) (ho : o < maxOrder) :
    (fl o).length = N / 2 ^ o % 2 := by
  have hn := nodup_of_fits (o := o) (fun p => (he p).le) (by omega)
  have hmem := fun i => h.mem_iff (i := i) he ho
  have hpos := Nat.two_pow_pos o
  have hdiv := Nat.div_add_mod N (2 ^ o)
  have hmod := Nat.mod_lt N hpos
  have hq := Nat.div_add_mod (N / 2 ^ o) 2
  simp only [pow_succ] at hmem
  generalize 2 ^ o = d at *
  generalize N / d = q at *
  rcases Nat.mod_two_eq_zero_or_one q with hb | hb
  · have hnil : fl o = [] := by
      refine List.eq_nil_iff_forall_not_mem.mpr fun i hi => ?_
      obtain ⟨⟨k, rfl⟩, h1, h2⟩ := (hmem i).mp hi
      have hk : q < 2 * (k + 1) := by
        refine Nat.lt_of_mul_lt_mul_left (a := d) ?_
        have : d * (2 * (k + 1)) = d * 2 * k + d * 2 := by ring
        omega
      have hk' : 2 * k + 1 < q + 1 := by
        refine Nat.lt_of_mul_lt_mul_left (a := d) ?_
        have e1 : d * (2 * k + 1) = d * 2 * k + d := by ring
        have e2 : d * (q + 1) = d * q + d := by ring
        omega
      omega
    rw [hnil, hb, List.length_nil]
  · have hone : fl o = [d * 2 * (q / 2)] := by
      have hqd : d * q = d * 2 * (q / 2) + d := by
        rw [Nat.mul_assoc, ← Nat.mul_add_one]
        congr 1
        omega
      refine List.perm_singleton.mp ((List.perm_ext_iff_of_nodup hn (List.nodup_singleton _)).mpr
        fun i => ?_)
      rw [List.mem_singleton, hmem]
      constructor
      · rintro ⟨hd, h1, h2⟩
        have hd' : d * 2 ∣ d * 2 * (q / 2) := Nat.dvd_mul_right _ _
        by_contra hne
        rcases Nat.lt_or_gt_of_ne hne with hlt | hlt
        · have := add_le_of_dvd hd hd' hlt
          omega
        · have := add_le_of_dvd hd' hd hlt
          omega
      · rintro rfl
        exact ⟨Nat.dvd_mul_right _ _, by omega, by omega⟩
    rw [hone, hb, List.length_singleton]

theorem Canon.length_top (h : Canon fl) (he : Exact N (blocks fl)) :
    (fl maxOrder).length = N / 2 ^ maxOrder := by
  have hn := nodup_of_fits (o := maxOrder) (fun p => (he p).le) le_rfl
  have hperm : (fl maxOrder).Perm
      ((List.range (N / 2 ^ maxOrder)).map fun k => 2 ^ maxOrder * k) := by
    have hpos := Nat.two_pow_pos maxOrder
    have hinj : (fun k => 2 ^ maxOrder * k).Injective := fun a b e =>
      Nat.eq_of_mul_eq_mul_left hpos e
    refine (List.perm_ext_iff_of_nodup hn (List.nodup_range.map hinj)).mpr fun i => ?_
    rw [h.mem_top he, List.mem_map]
    constructor
    · rintro ⟨⟨k, rfl⟩, hk⟩
      refine ⟨k, List.mem_range.mpr ?_, rfl⟩
      have : 2 ^ maxOrder * (k + 1) ≤ N := by rw [Nat.mul_succ]; exact hk
      exact (Nat.le_div_iff_mul_le hpos).mpr (by rwa [Nat.mul_comm])
    · rintro ⟨k, hk, rfl⟩
      have := (Nat.le_div_iff_mul_le hpos).mp (List.mem_range.mp hk)
      refine ⟨Nat.dvd_mul_right _ _, ?_⟩
      rw [← Nat.mul_succ, Nat.mul_comm]
      exact this
  rw [hperm.length_eq, List.length_map, List.length_range]

end Canon

/-! ## The numbers after an allocation -/

/-- The numbers of free blocks of the orders `o, …, o + k - 1`. -/
def counts (fl : FreeLists) (o k : Nat) : List Nat := (List.range' o k).map fun p => (fl p).length

/-- A block is taken from the first order that has one and halved down to the first order of the
list; its upper halves stay. Also says how many blocks that takes from the orders above the list. -/
def breakUp : List Nat → List Nat × Nat
  | [] => ([], 1)
  | 0 :: l => (1 :: (breakUp l).1, (breakUp l).2)
  | (k + 1) :: l => (k :: l, 0)

/-- The pieces of the tail of an allocation of `n` pages, by order. -/
def tailCounts (n : Nat) : List Nat :=
  (List.range' 0 maxOrder).map fun p => ((2 ^ orderOf n - n).testBit p).toNat

/-- The numbers of the blocks below the highest order, and of the blocks of the highest order broken
up so far, after an allocation of `n` pages. -/
def allocCounts (c : List Nat × Nat) (n : Nat) : List Nat × Nat :=
  let r := breakUp (c.1.drop (orderOf n))
  ((c.1.take (orderOf n) ++ r.1).zipWith (· + ·) (tailCounts n), c.2 + r.2)

section Counts

variable {N : Nat} {fl fl' : FreeLists} {i o : Nat}

theorem counts_succ (fl : FreeLists) (o k : Nat) :
    counts fl o (k + 1) = (fl o).length :: counts fl (o + 1) k := rfl

theorem counts_congr {k : Nat} (h : ∀ p, o ≤ p → p < o + k → (fl p).length = (fl' p).length) :
    counts fl o k = counts fl' o k := by
  refine List.map_congr_left fun p hp => ?_
  obtain ⟨h1, h2⟩ := List.mem_range'_1.mp hp
  exact h p h1 h2

theorem range'_orders (ho : o ≤ maxOrder) : List.range' o (maxOrder + 1 - o) =
    o :: List.range' (o + 1) (maxOrder + 1 - (o + 1)) := by
  have : maxOrder + 1 - o = maxOrder + 1 - (o + 1) + 1 := by omega
  rw [this, List.range'_succ]

theorem pick_cons {is : List Nat} (ho : o ≤ maxOrder) (h : fl o = i :: is) :
    pick fl o = some o := by
  unfold pick
  rw [range'_orders ho, List.find?_cons, h]
  rfl

theorem pick_nil (ho : o ≤ maxOrder) (h : fl o = []) : pick fl o = pick fl (o + 1) := by
  unfold pick
  rw [range'_orders ho, List.find?_cons, h]
  rfl

theorem allocSub_cons {is : List Nat} (ho : o ≤ maxOrder) (h : fl o = i :: is) :
    allocSub fl o = some (drop fl i o, i) := by
  unfold allocSub
  simp only [pick_cons ho h, h, Nat.sub_self]
  rfl

theorem split_succ (fl : FreeLists) (i o : Nat) : ∀ k : Nat,
    split fl i o (k + 1) = put (split fl i (o + 1) k) (i + 2 ^ o) o
  | 0 => rfl
  | k + 1 => by
    rw [split, split_succ _ i o k, split, show o + (k + 1) = o + 1 + k by omega]

/-- No block of the order: one of the next order is halved. -/
theorem allocSub_nil (ho : o ≤ maxOrder) (h : fl o = []) :
    allocSub fl o = (allocSub fl (o + 1)).map fun r => (put r.1 (r.2 + 2 ^ o) o, r.2) := by
  unfold allocSub
  rw [pick_nil ho h]
  cases hp : pick fl (o + 1) with
  | none => rfl
  | some c =>
    obtain ⟨hc, -, -⟩ := pick_some hp
    cases hfl : fl c with
    | nil => simp [hfl]
    | cons j js =>
      have hk : c - o = c - (o + 1) + 1 := by omega
      simp only [hfl, Option.map_some, hk, split_succ]

/-- **The numbers of blocks after a block is taken.** -/
theorem allocSub_counts : ∀ (k : Nat) {o i : Nat} {fl' : FreeLists}, o + k = maxOrder →
    allocSub fl o = some (fl', i) →
    counts fl' o k = (breakUp (counts fl o k)).1 ∧
      (fl' maxOrder).length + (breakUp (counts fl o k)).2 = (fl maxOrder).length ∧
      ∀ p < o, fl' p = fl p
  | 0, o, i, fl', hk, h => by
    obtain rfl : o = maxOrder := hk
    cases hfl : fl maxOrder with
    | nil =>
      rw [allocSub_nil le_rfl hfl] at h
      cases h
    | cons j js =>
      rw [allocSub_cons le_rfl hfl] at h
      cases h
      refine ⟨rfl, ?_, fun p hp => ?_⟩
      · simp [breakUp, counts, drop, hfl]
      · exact Function.update_of_ne (by omega) ..
  | k + 1, o, i, fl', hk, h => by
    rw [counts_succ fl]
    cases hfl : fl o with
    | nil =>
      rw [allocSub_nil (by omega) hfl] at h
      obtain ⟨⟨fl₁, j⟩, h1, h2⟩ := Option.map_eq_some_iff.mp h
      cases h2
      obtain ⟨e1, e2, e3⟩ := allocSub_counts k (by omega) h1
      have hne : ∀ p, p ≠ o → put fl₁ (j + 2 ^ o) o p = fl₁ p := fun p hp => put_of_ne _ _ hp
      refine ⟨?_, ?_, fun p hp => ?_⟩
      · simp only [counts_succ, put_self, e3 o (Nat.lt_succ_self o), hfl, List.length_cons,
          List.length_nil, breakUp, ← e1]
        congr 1
        exact counts_congr fun p hp _ => by rw [hne p (by omega)]
      · simp only [hne maxOrder (by omega)]
        exact e2
      · simp only [hne p (by omega)]
        exact e3 p (by omega)
    | cons j js =>
      rw [allocSub_cons (by omega) hfl] at h
      cases h
      have hne : ∀ p, p ≠ o → drop fl i o p = fl p := fun p hp => Function.update_of_ne hp ..
      refine ⟨?_, ?_, fun p hp => hne p (by omega)⟩
      · rw [counts_succ]
        simp only [List.length_cons, breakUp]
        congr 1
        · simp [drop, hfl]
        · exact counts_congr fun p hp _ => by rw [hne p (by omega)]
      · rw [hne _ (by omega)]
        rfl

/-- No block is found only when every list from the order up is empty. -/
theorem allocSub_eq_none : ∀ (k : Nat) {o : Nat}, o + k = maxOrder → allocSub fl o = none →
    (breakUp (counts fl o k)).2 = 1 ∧ fl maxOrder = []
  | 0, o, hk, h => by
    obtain rfl : o = maxOrder := hk
    cases hfl : fl maxOrder with
    | nil => exact ⟨rfl, rfl⟩
    | cons j js =>
      rw [allocSub_cons le_rfl hfl] at h
      cases h
  | k + 1, o, hk, h => by
    cases hfl : fl o with
    | nil =>
      rw [allocSub_nil (by omega) hfl, Option.map_eq_none_iff] at h
      rw [counts_succ, hfl]
      exact allocSub_eq_none k (by omega) h
    | cons j js =>
      rw [allocSub_cons (by omega) hfl] at h
      cases h

theorem testBit_add_two_pow {m : Nat} (hd : 2 ^ (o + 1) ∣ m) (p : Nat) :
    (m + 2 ^ o).testBit p = (m.testBit p || decide (o = p)) ∧ m.testBit o = false := by
  obtain ⟨q, rfl⟩ := hd
  have hlt : 2 ^ o < 2 ^ (o + 1) := Nat.pow_lt_pow_right (by decide) (Nat.lt_succ_self o)
  have h0 := fun p => Nat.testBit_two_pow_mul_add q (Nat.two_pow_pos (o + 1)) p
  simp only [Nat.add_zero, Nat.zero_testBit] at h0
  refine ⟨?_, by rw [h0, if_pos (Nat.lt_succ_self o)]⟩
  rw [Nat.testBit_two_pow_mul_add q hlt, h0, Nat.testBit_two_pow]
  by_cases hp : p < o + 1
  · rw [if_pos hp, if_pos hp, Bool.false_or]
  · rw [if_neg hp, if_neg hp, decide_eq_false (by omega), Bool.or_false]

/-- One piece for each bit. -/
theorem putBits_length (p : Nat) : ∀ (k : Nat) {fl : FreeLists} {i n o : Nat}, 2 ^ o ∣ n →
    n < 2 ^ (o + k) → (putBits k fl i n o p).length = (fl p).length + (n.testBit p).toNat
  | 0, fl, i, n, o, hd, hk => by
    obtain rfl : n = 0 := Nat.eq_zero_of_dvd_of_lt hd hk
    simp [putBits]
  | k + 1, fl, i, n, o, hd, hk => by
    have hk' : o + 1 + k = o + (k + 1) := by omega
    unfold putBits
    by_cases hle : n ≥ 2 ^ o
    · rw [if_pos hle]
      by_cases hbit : n &&& 2 ^ o ≠ 0
      · have hd' := dvd_sub_of_and hd hbit
        obtain ⟨e1, e2⟩ := testBit_add_two_pow hd' p
        rw [Nat.sub_add_cancel hle] at e1
        rw [if_pos hbit, putBits_length p k hd' (by rw [hk']; omega), e1]
        by_cases hp : o = p
        · subst hp
          rw [put_self, e2]
          simp
        · rw [put_of_ne _ _ (Ne.symm hp), decide_eq_false hp, Bool.or_false]
      · rw [if_neg hbit]
        exact putBits_length p k (dvd_of_and hd (not_not.mp hbit)) (by rwa [hk'])
    · rw [if_neg hle]
      obtain rfl : n = 0 := Nat.eq_zero_of_dvd_of_lt hd (by omega)
      simp

/-- The lists have the numbers `c`, of `T` blocks of the highest order before any was broken up. -/
structure Counted (T : Nat) (fl : FreeLists) (c : List Nat × Nat) : Prop where
  low : counts fl 0 maxOrder = c.1
  top : (fl maxOrder).length + c.2 = T

variable {T : Nat} {c : List Nat × Nat}

theorem take_counts {n : Nat} (fl : FreeLists) (ho : o ≤ n) :
    (counts fl 0 n).take o = counts fl 0 o ∧ (counts fl 0 n).drop o = counts fl o (n - o) := by
  have hlen : (counts fl 0 o).length = o := by simp [counts]
  have happ : counts fl 0 n = counts fl 0 o ++ counts fl o (n - o) := by
    unfold counts
    rw [← List.map_append]
    have := List.range'_append_1 (s := 0) (m := o) (n := n - o)
    rw [Nat.zero_add, Nat.add_sub_cancel' ho] at this
    rw [this]
  rw [happ]
  exact ⟨List.take_left' hlen, List.drop_left' hlen⟩

/-- **The numbers of blocks after an allocation.** -/
theorem allocPages_counted {n : Nat} (hc : Counted T fl c) (h : Canon fl) (hfit : Fits N (blocks fl))
    (hn : 0 < n) (hn' : n ≤ 2 ^ maxOrder) (ha : allocPages N fl n = some (fl', i)) :
    Counted T fl' (allocCounts c n) := by
  obtain ⟨-, -, fl₁, h1, rfl⟩ := allocPages_canon h hfit hn hn' ha
  obtain ⟨e1, e2, e3⟩ := allocSub_counts (maxOrder - orderOf n)
    (Nat.add_sub_cancel' (orderOf_le n)) h1
  obtain ⟨t1, t2⟩ := take_counts fl (orderOf_le n)
  obtain ⟨u1, u2⟩ := take_counts fl₁ (orderOf_le n)
  have hlt : 2 ^ orderOf n - n < 2 ^ maxOrder := by
    have := size_le (orderOf_le n)
    have := Nat.two_pow_pos maxOrder
    omega
  have hlen : ∀ p, (putBits 32 fl₁ (i + n) (2 ^ orderOf n - n) 0 p).length =
      (fl₁ p).length + ((2 ^ orderOf n - n).testBit p).toNat := fun p =>
    putBits_length p 32 (by simp) (hlt.trans (Nat.pow_lt_pow_right (by decide) (by decide)))
  have hlow : (counts fl 0 maxOrder).take (orderOf n) ++
      (breakUp ((counts fl 0 maxOrder).drop (orderOf n))).1 = counts fl₁ 0 maxOrder := by
    rw [t1, t2, ← e1, ← List.take_append_drop (orderOf n) (counts fl₁ 0 maxOrder), u1, u2]
    congr 1
    exact counts_congr fun p _ hp => by rw [e3 p (by omega)]
  refine ⟨?_, ?_⟩
  · simp only [allocCounts, ← hc.low, hlow]
    simp only [counts, tailCounts, List.zipWith_map, List.zipWith_self, hlen]
  · have htop : (2 ^ orderOf n - n).testBit maxOrder = false := Nat.testBit_lt_two_pow hlt
    rw [hlen, htop]
    unfold allocCounts
    rw [← hc.low]
    simp only [t2]
    have := hc.top
    simp only [Bool.toNat_false]
    omega

/-- A request that finds no block would have broken up one more of the highest order, and there is
none left. -/
theorem allocPages_none_counts {n : Nat} (hc : Counted T fl c) (ha : allocPages N fl n = none) :
    fl maxOrder = [] ∧ (allocCounts c n).2 = T + 1 := by
  have hsub : allocSub fl (orderOf n) = none := by
    unfold allocPages at ha
    rwa [Option.map_eq_none_iff] at ha
  obtain ⟨e1, e2⟩ := allocSub_eq_none (maxOrder - orderOf n)
    (Nat.add_sub_cancel' (orderOf_le n)) hsub
  obtain ⟨-, t2⟩ := take_counts fl (orderOf_le n)
  have htop := hc.top
  refine ⟨e2, ?_⟩
  unfold allocCounts
  rw [← hc.low]
  simp only [t2, e1]
  rw [e2] at htop
  simp only [List.length_nil] at htop
  omega

end Counts

end Hurlex.Buddy
