import Hurlex.Mm.BuddyInit
import Hurlex.Mm.BuddyStray

/-!
# The self-test

`buddy_page_init` ends in `buddy_test_mm`: two rounds of allocations, after each of which what the
allocations returned is freed, also where they returned `0`. The first round is served when there
are three pages, and leaves the lists as they were, up to the order of the blocks. The last request
of the second round is for 547 pages, a block of the highest order; whether there is one left is a
matter of how many blocks of each order there were (`allocCounts`).

`buddyPageInit_ending`: from 1400 pages on every request is served. Below, the call ends with
freeing 547 pages at address `0`. Either way a block is left that does not start at a multiple of
its size, and the counter has gained pages.
-/

namespace Hurlex.Buddy

open Lib

variable {M : PhyMem} {s : BuddyMm} {p : Pool} {live : List Seg}

/-! ## The rounds -/

/-- Allocations, then the release of what they returned. -/
def testRound (start : Nat) (sizes : List Nat) (s : BuddyMm) : Kern BuddyMm := do
  let (s, pages) ← allocEach start sizes s
  freeEach start pages s

theorem buddyTestMm_eq {start : Nat} {s s₁ : BuddyMm} (h : testRound start [1, 2] s = .ok s₁) :
    buddyTestMm start s = testRound start testSizes s₁ := by
  unfold testRound at h
  unfold buddyTestMm testRound
  cases ha : allocEach start [1, 2] s with
  | error e =>
    simp only [ha, bind, Except.bind] at h
    cases h
  | ok r =>
    simp only [ha, bind, Except.bind] at h
    simp only [bind, Except.bind, h]

theorem testRound_ok {start : Nat} {sizes : List Nat} {s s₁ s₂ : BuddyMm}
    {pages : List (Nat × Nat)} (ha : allocEach start sizes s = .ok (s₁, pages))
    (hf : freeEach start pages s₁ = .ok s₂) : testRound start sizes s = .ok s₂ := by
  unfold testRound
  simp only [ha, bind, Except.bind, hf]

/-- A round whose requests are all served: its two halves. -/
theorem testRound_served {sizes is : List Nat} (h : Holds M s p) (he : Exact M.count (blocks p.fl))
    (hsz : ∀ n ∈ sizes, 0 < n ∧ n ≤ 2 ^ maxOrder)
    (hs : (p.allocEach M.count sizes).2 = is.map some) :
    ∃ s₁ pages s', allocEach M.start sizes s = .ok (s₁, pages) ∧
      freeEach M.start pages s₁ = .ok s' ∧ Holds M s₁ (p.allocEach M.count sizes).1 ∧
      Holds M s' ((p.allocEach M.count sizes).1.freeEach M.count (is.zip sizes)) ∧
      Exact M.count
        (blocks ((p.allocEach M.count sizes).1.freeEach M.count (is.zip sizes)).fl) ∧
      Exact M.count (blocks (p.allocEach M.count sizes).1.fl ++ (is.zip sizes ++ [])) := by
  obtain ⟨s₁, live, a1, a2, a3, a4⟩ :=
    allocEach_holds sizes h (exact_nil he) fun n hn => (hsz n hn).2
  rw [hs, List.append_nil, served_map_some] at a4
  have hpages : ((is.map some).map (allocAddr M)).zip sizes =
      (is.zip sizes).map fun x => (M.addr x.1, x.2) := by
    rw [List.map_map, List.zip_map_left]
    rfl
  rw [hs, hpages] at a1
  have hex : Exact M.count (blocks (p.allocEach M.count sizes).1.fl ++ (is.zip sizes ++ [])) := by
    rw [List.append_nil]
    exact a3.of_perm (List.Perm.append_left _ a4)
  obtain ⟨s₂, f1, f2, f3⟩ := freeEach_holds (is.zip sizes) a2 hex fun x hx => by
    obtain ⟨h1, h2⟩ := hsz x.2 (List.of_mem_zip hx).2
    exact ⟨h1, h2.trans_lt (Nat.pow_lt_pow_right (by decide) (Nat.lt_succ_self _))⟩
  rw [List.append_nil] at f3
  exact ⟨s₁, _, s₂, a1, f1, a2, f2, f3, hex⟩

/-- Two pages or less: the second request of the first round is not served. -/
theorem firstRound_short (h : Holds M s p) (hc : Canon p.fl) (he : Exact M.count (blocks p.fl))
    (hnow : p.now = M.count) (hM : M.count ≤ 2) :
    ∃ s', testRound M.start [1, 2] s = .ok s' ∧ Manages M s' ∧
      s'.phyPageNowCount = M.count + 2 := by
  have hpos := M.count_pos
  have hcount : ∀ m < 3, 0 < m → ([1].foldl allocCounts (bitCounts m, 0)).2 = 0 := by decide
  have hm : 2 ^ maxOrder = 1024 := rfl
  have hcnt := hc.counted he
  rw [Nat.mod_eq_of_lt (by omega)] at hcnt
  have hword : p.now + [1].length * 2 ^ maxOrder < 2 ^ 32 := by
    rw [hnow, hm]
    simp only [List.length_singleton]
    omega
  obtain ⟨is, hs⟩ := Pool.allocEach_served [1] hc (fun q => (he q).le) hcnt
    (by decide) (by rw [hcount M.count (by omega) hpos]; exact Nat.zero_le _)
    (by rw [hnow]; exact hpos) hword
  obtain ⟨-, -, -, e6⟩ := Pool.allocEach_spec [1] hc (fun q => (he q).le) hcnt (by decide) hword hs
  have hnow1 : (p.allocEach M.count [1]).1.now + 1 = p.now := e6
  obtain ⟨s₁, -, a1, a2, -, -⟩ := allocEach_holds [1] h (exact_nil he)
    (by decide)
  have a3 := allocEach_short M.start [2] s₁ fun n hn => by
    rw [List.mem_singleton.mp hn, a2.now]
    omega
  have hsum : ((((p.allocEach M.count [1]).2.map (allocAddr M)).zip [1] ++
      [2].map fun n => (0, n)).map Prod.snd) = [1, 2] := by
    rw [List.map_append, pages_sizes]
    rfl
  obtain ⟨s₂, f1, f2, f3⟩ := freeEach_total _ a2.manages (fun x hx => by
    have : x.2 ∈ [1, 2] := hsum ▸ List.mem_map_of_mem hx
    simp only [List.mem_cons, List.not_mem_nil, or_false] at this
    omega) (by rw [hsum, a2.now]; simp only [List.sum_cons, List.sum_nil]; omega)
  rw [hsum, a2.now] at f3
  simp only [List.sum_cons, List.sum_nil] at f3
  exact ⟨s₂, testRound_ok (allocEach_append a3 a1) f1, f2, by omega⟩

/-- Three pages or more: the first round is served, and the lists are aligned and coalesced as
before. -/
theorem firstRound_served (h : Holds M s p) (hc : Canon p.fl) (he : Exact M.count (blocks p.fl))
    (hnow : p.now = M.count) (hM : 3 ≤ M.count) :
    ∃ s' p', testRound M.start [1, 2] s = .ok s' ∧ Holds M s' p' ∧ Canon p'.fl ∧
      Exact M.count (blocks p'.fl) ∧ p'.now = M.count := by
  have hlt := M.count_lt
  have hm : 2 ^ maxOrder = 1024 := rfl
  have hcount : ∀ m < 1024,
      ([1, 2].foldl allocCounts (bitCounts m, 0)).2 ≤ if m < 3 then 1 else 0 := by decide +kernel
  have hT : ([1, 2].foldl allocCounts (bitCounts (M.count % 1024), 0)).2 ≤ M.count / 1024 := by
    have := hcount (M.count % 1024) (Nat.mod_lt _ (by decide))
    split_ifs at this <;> omega
  rw [← hm] at hT
  have hsz : ∀ n ∈ [1, 2], 0 < n ∧ n ≤ 2 ^ maxOrder := by decide
  have hword : p.now + [1, 2].length * 2 ^ maxOrder < 2 ^ 32 := by
    rw [hnow, hm]
    simp only [List.length_cons, List.length_nil]
    omega
  obtain ⟨is, e1⟩ := Pool.allocEach_served [1, 2] hc (fun q => (he q).le) (hc.counted he) hsz hT
    (by rw [hnow]; exact hM) hword
  have e2 := Pool.length_of_served e1
  obtain ⟨e3, -, e5, e6⟩ := Pool.allocEach_spec [1, 2] hc (fun q => (he q).le) (hc.counted he) hsz
    hword e1
  obtain ⟨s₁, pages, s', ha, hf, -, t2, t3, t4⟩ := testRound_served h he hsz e1
  obtain ⟨i, j, rfl⟩ : ∃ i j, is = [i, j] := List.length_eq_two.mp e2
  have hs : ((([i, j].zip [1, 2]) : List Seg).map Prod.snd).sum = [1, 2].sum := rfl
  have htail : ([1, 2].map fun n => 2 ^ orderOf n - n).sum = 0 := by decide
  rw [htail, hnow] at e6
  refine ⟨s', _, testRound_ok ha hf, t2, Pool.freeEach_canon _ e3 t4 fun x hx => ?_, t3, ?_⟩
  · have hdvd := (e5 x hx).1
    simp only [List.zip_cons_cons, List.zip_nil_right, List.mem_cons, List.not_mem_nil,
      or_false] at hx
    rcases hx with rfl | rfl
    · exact ⟨0, by decide, rfl, hdvd⟩
    · exact ⟨1, by decide, rfl, hdvd⟩
  · rw [Pool.freeEach_now _ _ (by rw [hs]; omega), hs, e6, Nat.add_zero]

/-- Releases the last two of which are of 129 and of 547 pages at address `0`. -/
theorem freeEach_stray {l : List (Nat × Nat)} (h : Manages M s)
    (hl : ∀ x ∈ l, 0 < x.2 ∧ x.2 < 2 ^ 31)
    (hnow : s.phyPageNowCount + ((l ++ [(0, 129), (0, 547)]).map Prod.snd).sum < 2 ^ 32) :
    ∃ s₁ s₂ s', freeEach M.start (l ++ [(0, 129), (0, 547)]) s = .ok s' ∧ Manages M s₁ ∧
      buddyFreePages M.start s₁ 0 129 = .ok s₂ ∧ buddyFreePages M.start s₂ 0 547 = .ok s' ∧
      s'.phyPageNowCount =
        s.phyPageNowCount + ((l ++ [(0, 129), (0, 547)]).map Prod.snd).sum := by
  have hsum : ((l ++ [(0, 129), (0, 547)]).map Prod.snd).sum =
      (l.map Prod.snd).sum + (129 + 547) := by
    rw [List.map_append, List.sum_append]
    rfl
  rw [hsum] at hnow ⊢
  clear hsum
  generalize hS : (l.map Prod.snd).sum = S at *
  obtain ⟨s₁, h1, h2, h3⟩ := freeEach_total l h hl (by rw [hS]; omega)
  rw [hS] at h3
  rw [← Nat.add_assoc S, ← Nat.add_assoc, ← Nat.add_assoc] at hnow ⊢
  have hlt : s.phyPageNowCount + S + 129 < 2 ^ 32 := Nat.lt_of_le_of_lt (Nat.le_add_right _ _) hnow
  obtain ⟨s₂, g1, g2, g3⟩ := buddyFreePages_returns (n := 129) h2 0 (by decide) (by decide)
  obtain ⟨s', k1, -, k3⟩ := buddyFreePages_returns (n := 547) g2 0 (by decide) (by decide)
  rw [g3, h3, u32_of_lt hlt, u32_of_lt hnow] at k3
  refine ⟨s₁, s₂, s', ?_, h2, g1, k1, k3⟩
  rw [freeEach_append h1, freeEach_cons (x := (0, 129)) g1, freeEach_cons (x := (0, 547)) k1]
  rfl

/-- The second round when the counter is short of every request. -/
theorem secondRound_short (h : Manages M s) (hnow : s.phyPageNowCount < 8) :
    ∃ s₁ s₂ s', testRound M.start testSizes s = .ok s' ∧ Manages M s₁ ∧
      buddyFreePages M.start s₁ 0 129 = .ok s₂ ∧ buddyFreePages M.start s₂ 0 547 = .ok s' ∧
      s'.phyPageNowCount = s.phyPageNowCount + 777 := by
  have hsz : ∀ n ∈ testSizes, n ≥ 8 := by decide
  have ha := allocEach_short M.start testSizes s fun n hn => by
    have := hsz n hn
    omega
  obtain ⟨s₁, s₂, s', h1, h2, h3, h4, h5⟩ := freeEach_stray
    (l := [(0, 8), (0, 16), (0, 18), (0, 27), (0, 32)]) h (by decide)
    (by simp only [List.cons_append, List.nil_append, List.map_cons, List.map_nil, List.sum_cons,
          List.sum_nil]
        omega)
  exact ⟨s₁, s₂, s', testRound_ok ha h1, h2, h3, h4, h5⟩

/-- An allocation of order `k` or more neither looks at the counts below order `k` nor lets them
reach the others. -/
theorem allocCounts_low {k n : Nat} (hk : k ≤ orderOf n) (hm : k ≤ maxOrder) (a a' d : List Nat)
    (x : Nat) (ha : a.length = k) (ha' : a'.length = k) :
    ∃ b b' e y, b.length = k ∧ b'.length = k ∧ allocCounts (a ++ d, x) n = (b ++ e, y) ∧
      allocCounts (a' ++ d, x) n = (b' ++ e, y) := by
  obtain ⟨t, u, htu, ht⟩ : ∃ t u, tailCounts n = t ++ u ∧ t.length = k :=
    ⟨_, _, (List.take_append_drop k (tailCounts n)).symm, by simp [tailCounts, hm]⟩
  have hdrop (l : List Nat) (hl : l.length = k) :
      (l ++ d).drop (orderOf n) = d.drop (orderOf n - k) := by
    rw [List.drop_append, List.drop_eq_nil_of_le (hl ▸ hk), hl, List.nil_append]
  have htake (l : List Nat) (hl : l.length = k) :
      (l ++ d).take (orderOf n) = l ++ d.take (orderOf n - k) := by
    rw [List.take_append, List.take_of_length_le (hl ▸ hk), hl]
  refine ⟨a.zipWith (· + ·) t, a'.zipWith (· + ·) t,
    (d.take (orderOf n - k) ++ (breakUp (d.drop (orderOf n - k))).1).zipWith (· + ·) u,
    x + (breakUp (d.drop (orderOf n - k))).2, by simp [ha, ht], by simp [ha', ht], ?_, ?_⟩
  · simp only [allocCounts, hdrop a ha, htake a ha, htu, List.append_assoc]
    rw [List.zipWith_append (ha.trans ht.symm)]
  · simp only [allocCounts, hdrop a' ha', htake a' ha', htu, List.append_assoc]
    rw [List.zipWith_append (ha'.trans ht.symm)]

theorem foldl_allocCounts_low {k : Nat} (hm : k ≤ maxOrder) : ∀ (sizes : List Nat),
    (∀ n ∈ sizes, k ≤ orderOf n) → ∀ (a a' d : List Nat) (x : Nat), a.length = k → a'.length = k →
      (sizes.foldl allocCounts (a ++ d, x)).2 = (sizes.foldl allocCounts (a' ++ d, x)).2
  | [], _, _, _, _, _, _, _ => rfl
  | n :: sizes, h, a, a', d, x, ha, ha' => by
    obtain ⟨b, b', e, y, hb, hb', h1, h2⟩ :=
      allocCounts_low (h n List.mem_cons_self) hm a a' d x ha ha'
    rw [List.foldl_cons, List.foldl_cons, h1, h2]
    exact foldl_allocCounts_low hm sizes (fun n hn => h n (List.mem_cons_of_mem _ hn)) b b' e y
      hb hb'

/-- From order 3 on, the counts are those of the multiple of 8 below. -/
theorem bitCounts_drop (m : Nat) : (bitCounts m).drop 3 = (bitCounts (8 * (m / 8))).drop 3 := by
  have h8 (o : Nat) : 8 * (m / 8) / 2 ^ (3 + o) = m / 2 ^ (3 + o) := by
    rw [pow_add, ← Nat.div_div_eq_div_mul, ← Nat.div_div_eq_div_mul]
    exact congrArg (· / 2 ^ o) (Nat.mul_div_cancel_left (m / 8) (by decide))
  unfold bitCounts
  rw [← List.map_drop, ← List.map_drop]
  refine List.map_congr_left fun o ho => ?_
  obtain ⟨j, rfl⟩ : ∃ j, o = 3 + j := Nat.exists_eq_add_of_le (List.mem_range'_1.mp ho).1
  rw [h8]

/-- All but the last of the sizes of the second round. -/
def smallSizes : List Nat := [8, 16, 18, 27, 32, 129]

theorem smallSizes_le : ∀ n ∈ smallSizes, 0 < n ∧ n ≤ 2 ^ maxOrder := by decide

theorem smallSizes_sum : smallSizes.sum = 230 := by decide

theorem smallSizes_length : smallSizes.length * 2 ^ maxOrder = 6144 := by decide

/-- A block of the highest order is broken up for them unless the pages behind those blocks are
enough. -/
theorem smallSizes_counts : ∀ m < 1024, (smallSizes.foldl allocCounts (bitCounts m, 0)).2 =
    if m < 376 then 1 else 0 := by
  -- all of them are of order 3 or more
  have hmul : ∀ q < 128, (smallSizes.foldl allocCounts (bitCounts (8 * q), 0)).2 =
      if q < 47 then 1 else 0 := by decide +kernel
  have hlow := @foldl_allocCounts_low 3 (by decide) smallSizes (by decide)
  intro m hm
  have h := hlow ((bitCounts m).take 3) ((bitCounts (8 * (m / 8))).take 3) ((bitCounts m).drop 3) 0
    rfl rfl
  rw [List.take_append_drop, bitCounts_drop m, List.take_append_drop] at h
  rw [h, hmul (m / 8) (by omega)]
  exact if_congr (by omega) rfl rfl

theorem testSizes_eq : testSizes = smallSizes ++ [547] := rfl

/-- The last request takes one more. -/
theorem testSizes_counts (c : List Nat × Nat) : (testSizes.foldl allocCounts c).2 =
    (smallSizes.foldl allocCounts c).2 +
      (breakUp ((smallSizes.foldl allocCounts c).1.drop 10)).2 := by
  rw [testSizes_eq, List.foldl_append]
  rfl

/-- What the six requests got, freed in turn, leaves a misplaced block. -/
theorem smallSizes_misplaced {is : List Nat} {l : List Seg} (hlen : is.length = smallSizes.length)
    (hal : ∀ x ∈ is.zip smallSizes, 2 ^ orderOf x.2 ∣ x.1 ∧ x.1 + 2 ^ orderOf x.2 ≤ M.count)
    (hl : ∀ x ∈ l, 8 ∣ x.1 ∧ x.2 < 2 ^ (maxOrder + 1)) (hc : Canon p.fl)
    (he : Exact M.count (blocks p.fl ++ (is.zip smallSizes ++ l))) :
    Misplaced (p.freeEach M.count (is.zip smallSizes ++ l)).fl := by
  obtain ⟨a, b, c, d, e, f, rfl⟩ : ∃ a b c d e f, is = [a, b, c, d, e, f] := by
    rcases is with _ | ⟨a, _ | ⟨b, _ | ⟨c, _ | ⟨d, _ | ⟨e, _ | ⟨f, _ | ⟨g, is⟩⟩⟩⟩⟩⟩⟩ <;>
      simp [smallSizes] at hlen
    exact ⟨a, b, c, d, e, f, rfl⟩
  simp only [smallSizes, List.zip_cons_cons, List.zip_nil_right, List.cons_append,
    List.nil_append] at hal he ⊢
  have h8 : ∀ n ∈ [27, 32, 129], 8 ∣ 2 ^ orderOf n := by decide
  obtain ⟨hc1, hc2⟩ := hal (c, 18) (by simp)
  refine Pool.freeEach_misplaced hc he (hal (a, 8) (by simp)).1 (hal (b, 16) (by simp)).1 hc1 hc2
    fun x hx => ?_
  simp only [List.mem_cons] at hx
  rcases hx with rfl | rfl | rfl | hx
  · exact ⟨(h8 27 (by simp)).trans (hal (d, 27) (by simp)).1, by simp [maxOrder]⟩
  · exact ⟨(h8 32 (by simp)).trans (hal (e, 32) (by simp)).1, by simp [maxOrder]⟩
  · exact ⟨(h8 129 (by simp)).trans (hal (f, 129) (by simp)).1, by simp [maxOrder]⟩
  · exact hl x hx

/-- Fewer than 1400 pages: after the others no block of the highest order is left. -/
theorem smallSizes_top (hc : Canon p.fl) (he : Exact M.count (blocks p.fl)) (hnow : p.now = M.count)
    (hM : M.count < 1400) {q : Pool} {live : List Seg}
    (hq : q = (p.allocEach M.count smallSizes).1)
    (hex : Exact M.count (blocks q.fl ++ live)) : q.fl maxOrder = [] := by
  have hm : 2 ^ maxOrder = 1024 := rfl
  by_cases hlt : M.count < 1024
  · refine List.eq_nil_iff_forall_not_mem.mpr fun i hi => ?_
    have := block_le hex.fits le_rfl hi
    omega
  · have hused := smallSizes_counts (M.count % 1024) (Nat.mod_lt _ (by decide))
    rw [if_pos (by omega)] at hused
    have hT : M.count / 1024 = 1 := by omega
    rw [← hm] at hused hT
    have hcnt := hc.counted he
    rw [hT] at hcnt
    have hword : p.now + smallSizes.length * 2 ^ maxOrder < 2 ^ 32 := by
      rw [hnow, smallSizes_length]
      omega
    obtain ⟨is, e1⟩ := Pool.allocEach_served smallSizes hc (fun q => (he q).le) hcnt
      smallSizes_le hused.le (by rw [hnow, smallSizes_sum]; omega) hword
    obtain ⟨-, e4, -, -⟩ := Pool.allocEach_spec smallSizes hc (fun q => (he q).le) hcnt
      smallSizes_le hword e1
    have htop := e4.top
    rw [hused, ← hq] at htop
    exact List.length_eq_zero_iff.mp (by omega)

/-- Then the request for 547 pages is not served. -/
theorem alloc_547 (h : Holds M s p) (htop : p.fl maxOrder = []) :
    allocEach M.start [547] s = .ok (s, [(0, 547)]) := by
  have hnone : allocPages M.count p.fl 547 = none := by
    have hord : orderOf 547 = maxOrder := by decide
    unfold allocPages
    rw [hord, allocSub_nil le_rfl htop]
    rfl
  exact allocEach_cons (r := (s, [])) (buddyAllocPages_none h.rep (by decide) hnone) rfl

/-- Fewer than 1400 pages, and the 129 are not served: with the 547 they are freed at address
`0`. -/
theorem secondRound_unserved {rs : List (Option Nat)} (h : Holds M s p) (hc : Canon p.fl)
    (he : Exact M.count (blocks p.fl)) (hnow : p.now = M.count) (hM : M.count < 1400)
    (hrs : (p.allocEach M.count smallSizes).2 = rs ++ [none]) :
    ∃ s₁ s₂ s', testRound M.start testSizes s = .ok s' ∧ Manages M s₁ ∧
      buddyFreePages M.start s₁ 0 129 = .ok s₂ ∧ buddyFreePages M.start s₂ 0 547 = .ok s' ∧
      M.count + 623 ≤ s'.phyPageNowCount := by
  obtain ⟨s₁, live, a1, a2, a3, -⟩ :=
    allocEach_holds smallSizes h (exact_nil he) fun n hn => (smallSizes_le n hn).2
  have a5 := allocEach_append (alloc_547 a2 (smallSizes_top hc he hnow hM rfl a3)) a1
  have hsizes := pages_sizes (M := M) M.count smallSizes p
  have hlen : rs.length = 5 := by
    have := Pool.allocEach_length (N := M.count) smallSizes p
    rw [hrs, List.length_append] at this
    exact Nat.succ.inj this
  have hpages : ((p.allocEach M.count smallSizes).2.map (allocAddr M)).zip smallSizes ++ [(0, 547)] =
      (rs.map (allocAddr M)).zip [8, 16, 18, 27, 32] ++ [(0, 129), (0, 547)] := by
    have hsplit : smallSizes = [8, 16, 18, 27, 32] ++ [129] := rfl
    rw [hrs, hsplit, List.map_append, List.zip_append (by rw [List.length_map, hlen]; rfl),
      List.append_assoc]
    rfl
  have hsum : (((rs.map (allocAddr M)).zip [8, 16, 18, 27, 32] ++
      [(0, 129), (0, 547)]).map Prod.snd).sum = 777 := by
    rw [← hpages, List.map_append, hsizes]
    decide
  have hdrift : (smallSizes.map drift).sum = 146 := by decide
  obtain ⟨n1, n2⟩ := Pool.allocEach_now (N := M.count) smallSizes p
    (by rw [hnow, smallSizes_length]; omega)
  rw [hdrift, smallSizes_sum, hnow] at n1
  rw [smallSizes_length, hnow] at n2
  rw [hpages] at a5
  obtain ⟨s₂, s₃, s', f1, f2, f3, f4, f5⟩ := freeEach_stray a2.manages
    (l := (rs.map (allocAddr M)).zip [8, 16, 18, 27, 32]) (fun x hx => by
      have hall : ∀ n ∈ [8, 16, 18, 27, 32], 0 < n ∧ n < 2 ^ 31 := by decide
      exact hall x.2 (List.of_mem_zip hx).2) (by rw [hsum, a2.now]; omega)
  rw [hsum, a2.now] at f5
  exact ⟨s₂, s₃, s', testRound_ok a5 f1, f2, f3, f4, by omega⟩

/-- Fewer than 1400 pages, and all but the 547 are served. -/
theorem secondRound_failed {is : List Nat} (h : Holds M s p) (hc : Canon p.fl)
    (he : Exact M.count (blocks p.fl)) (hnow : p.now = M.count) (hM : M.count < 1400)
    (his : (p.allocEach M.count smallSizes).2 = is.map some) :
    ∃ s₁ p₁ s', testRound M.start testSizes s = .ok s' ∧ Holds M s₁ p₁ ∧
      Exact M.count (blocks p₁.fl) ∧ Misplaced p₁.fl ∧
      buddyFreePages M.start s₁ 0 547 = .ok s' ∧ M.count + 623 ≤ s'.phyPageNowCount := by
  obtain ⟨s₁, pages, s₂, a1, f1, h1, h2, h3, h4⟩ := testRound_served h he smallSizes_le his
  have hword : p.now + smallSizes.length * 2 ^ maxOrder < 2 ^ 32 := by
    rw [hnow, smallSizes_length]
    omega
  obtain ⟨e1, -, e3, e4⟩ := Pool.allocEach_spec smallSizes hc (fun q => (he q).le) (hc.counted he)
    smallSizes_le hword his
  have hlen := Pool.length_of_served his
  have htail : (smallSizes.map fun n => 2 ^ orderOf n - n).sum = 146 := by decide
  rw [smallSizes_sum, htail, hnow] at e4
  have a5 := allocEach_append (alloc_547 h1 (smallSizes_top hc he hnow hM rfl h4)) a1
  have hsum : ((is.zip smallSizes : List Seg).map Prod.snd).sum = 230 := by
    rw [List.map_snd_zip (Nat.le_of_eq hlen.symm), smallSizes_sum]
  have hnow2 : s₂.phyPageNowCount = M.count + 146 := by
    rw [h2.now, Pool.freeEach_now _ _ (by rw [hsum]; omega), hsum, e4]
  obtain ⟨s', g1, -, g3⟩ := buddyFreePages_returns (n := 547) h2.manages 0 (by decide) (by decide)
  have hmis := smallSizes_misplaced (l := []) hlen e3 (by simp) e1 h4
  rw [List.append_nil] at hmis
  refine ⟨s₂, _, s', testRound_ok a5 ?_, h2, h3, hmis, g1, ?_⟩
  · rw [freeEach_append f1, freeEach_cons (x := (0, 547)) g1]
    rfl
  · rw [g3, hnow2, u32_of_lt (Nat.lt_of_le_of_lt (Nat.add_le_add_right
      (Nat.add_le_add_right hM.le 146) 547) (by decide))]
    omega

/-- **From 1400 pages on the second round is served.** -/
theorem secondRound_served (h : Holds M s p) (hc : Canon p.fl) (he : Exact M.count (blocks p.fl))
    (hnow : p.now = M.count) (hM : 1400 ≤ M.count) :
    ∃ s' p', testRound M.start testSizes s = .ok s' ∧ Holds M s' p' ∧
      Exact M.count (blocks p'.fl) ∧ Misplaced p'.fl ∧ p'.now = M.count + 623 := by
  have hlt := M.count_lt
  have hm : 2 ^ maxOrder = 1024 := rfl
  have hused := smallSizes_counts (M.count % 1024) (Nat.mod_lt _ (by decide))
  have hT : (testSizes.foldl allocCounts (bitCounts (M.count % 1024), 0)).2 ≤ M.count / 1024 := by
    have hone : ∀ l, (breakUp l).2 ≤ 1 := by
      intro l
      induction l with
      | nil => exact le_rfl
      | cons n l ih => cases n <;> simp [breakUp, ih]
    have h1 := testSizes_counts (bitCounts (M.count % 1024), 0)
    have h2 := hone ((smallSizes.foldl allocCounts (bitCounts (M.count % 1024), 0)).1.drop 10)
    split_ifs at hused <;> omega
  rw [← hm] at hT
  have hsz : ∀ n ∈ testSizes, 0 < n ∧ n ≤ 2 ^ maxOrder := by decide
  have hsum : testSizes.sum = 777 := by decide
  have hlen : testSizes.length * 2 ^ maxOrder = 7168 := by decide
  have htail : (testSizes.map fun n => 2 ^ orderOf n - n).sum = 623 := by decide
  have hword : p.now + testSizes.length * 2 ^ maxOrder < 2 ^ 32 := by
    rw [hnow, hlen]
    omega
  obtain ⟨is, e1⟩ := Pool.allocEach_served testSizes hc (fun q => (he q).le) (hc.counted he) hsz hT
    (by rw [hnow, hsum]; omega) hword
  have e2 := Pool.length_of_served e1
  obtain ⟨e3, -, e5, e6⟩ := Pool.allocEach_spec testSizes hc (fun q => (he q).le) (hc.counted he)
    hsz hword e1
  rw [hsum, htail, hnow] at e6
  obtain ⟨s₁, pages, s', ha, hf, -, t2, t3, t4⟩ := testRound_served h he hsz e1
  have hs : ((is.zip testSizes : List Seg).map Prod.snd).sum = 777 := by
    rw [List.map_snd_zip (Nat.le_of_eq e2.symm), hsum]
  refine ⟨s', _, testRound_ok ha hf, t2, t3, ?_,
    by rw [Pool.freeEach_now _ _ (by rw [hs]; omega), hs, e6]⟩
  obtain ⟨js, a, rfl⟩ : ∃ js a, is = js ++ [a] := by
    rcases List.eq_nil_or_concat' is with rfl | hcat
    · cases e2
    · exact hcat
  have hjs : js.length = smallSizes.length := by
    rw [List.length_append] at e2
    exact Nat.succ.inj e2
  rw [testSizes_eq, List.zip_append hjs] at e5 t4 ⊢
  have h547 : 8 ∣ 2 ^ orderOf 547 := by decide
  refine smallSizes_misplaced hjs (fun x hx => e5 x (List.mem_append_left _ hx)) (fun x hx => ?_)
    e3 (by rwa [List.append_nil] at t4)
  obtain rfl : x = (a, 547) := by simpa using hx
  exact ⟨h547.trans (e5 (a, 547) (List.mem_append_right _ hx)).1, by simp [maxOrder]⟩

/-! ## `buddy_page_init` -/

/-- How `buddy_page_init` ends, in the state `s'`. -/
inductive Ending (M : PhyMem) (s' : BuddyMm) : Prop
  /-- Every request of the self-test is served. -/
  | served {p : Pool} (hM : 1400 ≤ M.count) (h : Holds M s' p) (he : Exact M.count (blocks p.fl))
    (hm : Misplaced p.fl)
  /-- All but the last one are. -/
  | failed {p : Pool} {s : BuddyMm} (hM : M.count < 1400) (h : Holds M s p)
    (he : Exact M.count (blocks p.fl)) (hm : Misplaced p.fl)
    (hf : buddyFreePages M.start s 0 547 = .ok s')
  /-- Neither of the last two is. -/
  | unserved {s₁ s₂ : BuddyMm} (hM : M.count < 1400) (h : Manages M s₁)
    (h₁ : buddyFreePages M.start s₁ 0 129 = .ok s₂) (h₂ : buddyFreePages M.start s₂ 0 547 = .ok s')

/-- **`buddy_page_init` returns, and has gained pages on the counter.** -/
theorem buddyPageInit_ending (hzero : ∀ i < M.count, s.mem.page (.entry i) = Page.zero) :
    ∃ s', buddyPageInit M.start s 0 M.count = .ok s' ∧ M.count + 623 ≤ s'.phyPageNowCount ∧
      Ending M s' := by
  obtain ⟨s₁, fl, hinit, hcut, hnow⟩ := buddyPageInit_eq hzero
  have h : Holds M s₁ ⟨fl, M.count⟩ := ⟨hcut.rep, hnow⟩
  rw [hinit]
  by_cases hM : M.count ≤ 2
  · obtain ⟨s₂, t1, t2, t3⟩ := firstRound_short h hcut.canon hcut.exact rfl hM
    obtain ⟨s₃, s₄, s', u1, u2, u3, u4, u5⟩ := secondRound_short t2 (by omega)
    rw [buddyTestMm_eq t1]
    exact ⟨s', u1, by omega, .unserved (by omega) u2 u3 u4⟩
  · obtain ⟨s₂, p, t1, t2, t3, t4, t5⟩ := firstRound_served h hcut.canon hcut.exact rfl (by omega)
    rw [buddyTestMm_eq t1]
    by_cases hM' : M.count < 1400
    · rcases Pool.allocEach_last (N := M.count) smallSizes p (fun n hn => (smallSizes_le n hn).1)
        (by decide) with ⟨is, his⟩ | ⟨rs, hrs⟩
      · obtain ⟨s₃, p₃, s', u1, u2, u3, u4, u5, u6⟩ := secondRound_failed t2 t3 t4 t5 hM' his
        exact ⟨s', u1, u6, .failed hM' u2 u3 u4 u5⟩
      · obtain ⟨s₃, s₄, s', u1, u2, u3, u4, u5⟩ := secondRound_unserved t2 t3 t4 t5 hM' hrs
        exact ⟨s', u1, u5, .unserved hM' u2 u3 u4⟩
    · obtain ⟨s', p', u1, u2, u3, u4, u5⟩ := secondRound_served t2 t3 t4 t5 (by omega)
      exact ⟨s', u1, by rw [u2.now]; omega, .served (by omega) u2 u3 u4⟩

end Hurlex.Buddy
