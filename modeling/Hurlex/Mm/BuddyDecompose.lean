import Hurlex.Mm.BuddyInit

/-!
# The blocks `buddy_page_init` starts with

The two loops of `buddy_page_init` as they are written: they share the pages left, the order, the
size and the cursor, `order--` wraps behind order 0, and `order_size >>= 1` then leaves 0.
`cutBlocks_eq` says that they end, whatever number of pages they get, that no index of `free_list`
and `nr_free` is above `MAX_ORDER`, and that they leave what `initBlocks` leaves.

`Laid N s fl p` is what a block keeps while the first `p` of `N` pages are cut. That a list below the
highest order gets one block at most needs no count of turns: once list `o` has its block, the cursor
is no multiple of `2^(o+1)`, and no later block makes it one.
-/

namespace Hurlex.Buddy

open Lib

/-! ## The loops as they are written -/

/-- The variables of the loops, less `order` and `order_size`. `used` keeps the indices given to
`free_list` and `nr_free`, the latest first. -/
structure InitLoop where
  mm : BuddyMm
  n : Nat
  p : Nat
  used : List Nat

/-- The variables before the loops. -/
def InitLoop.start (s : BuddyMm) (pages n : Nat) : InitLoop :=
  ⟨(List.range (maxOrder + 1)).foldl initFreeArea s, n, pages, []⟩

/-- The body of the inner loop. -/
def InitLoop.block (l : InitLoop) (order orderSize : Nat) : InitLoop :=
  ⟨putBlock l.mm l.p order, l.n - orderSize, l.p + orderSize, order :: l.used⟩

/-- The inner loop. -/
def cutOrder (order orderSize : Nat) : Nat → InitLoop → Kern InitLoop
  | 0, _ => .error .noReturn
  | fuel + 1, l =>
    if l.n ≥ orderSize then cutOrder order orderSize fuel (l.block order orderSize) else .ok l

/-- The outer loop; each inner one has `fuel`. -/
def cutBlocks (fuel : Nat) : Nat → Nat → Nat → InitLoop → Kern InitLoop
  | 0, _, _, _ => .error .noReturn
  | turns + 1, order, orderSize, l =>
    if l.n ≠ 0 then do
      let l ← cutOrder order orderSize fuel l
      cutBlocks fuel turns (u32Sub order 1) (orderSize / 2) l
    else .ok l

variable {N o : Nat} {s : BuddyMm} {fl : FreeLists}

theorem cutBlocks_done {fuel turns order orderSize : Nat} {l : InitLoop} (h : l.n = 0) :
    cutBlocks fuel (turns + 1) order orderSize l = .ok l :=
  if_neg (not_not.mpr h)

/-- The inner loop ends, and uses the one index. -/
theorem cutOrder_eq (o : Nat) : ∀ (k fuel : Nat) {l : InitLoop}, l.n ≤ k → k < fuel →
    ∃ l', cutOrder o (2 ^ o) fuel l = .ok l' ∧ (l'.mm, l'.n, l'.p) = initOrder o k l.mm l.n l.p ∧
      ∀ u ∈ l'.used, u = o ∨ u ∈ l.used
  | 0, _ + 1, l, hn, _ => by
    have hpos := Nat.two_pow_pos o
    exact ⟨l, if_neg (by omega), rfl, fun _ hu => .inr hu⟩
  | k + 1, fuel + 1, l, hn, hk => by
    have hpos := Nat.two_pow_pos o
    unfold cutOrder initOrder
    by_cases hle : l.n ≥ 2 ^ o
    · obtain ⟨l', h1, h2, h3⟩ := cutOrder_eq o k fuel (l := l.block o (2 ^ o))
        (by show l.n - 2 ^ o ≤ k; omega) (by omega)
      rw [if_pos hle, if_pos hle]
      refine ⟨l', h1, h2, fun u hu => ?_⟩
      rcases h3 u hu with e | hu
      · exact .inl e
      · exact List.mem_cons.mp hu
    · rw [if_neg hle, if_neg hle]
      exact ⟨l, rfl, rfl, fun _ hu => .inr hu⟩

/-- **The loops end and stay within `MAX_ORDER`**, and leave the memory `initBlocks` leaves. -/
theorem cutBlocks_eq (fuel : Nat) : ∀ (o turns : Nat) {l : InitLoop}, o ≤ maxOrder →
    l.n < fuel → o + 1 < turns →
    ∃ l', cutBlocks fuel turns o (2 ^ o) l = .ok l' ∧ initBlocks l.mm l.n l.p o = .ok l'.mm ∧
      l'.n = 0 ∧ l'.p = l.n + l.p ∧ ∀ u ∈ l'.used, u ≤ o ∨ u ∈ l.used
  | o, turns + 1, l, hle, hn, ht => by
    by_cases hz : l.n = 0
    · refine ⟨l, cutBlocks_done hz, ?_, hz, by omega, fun _ hu => .inr hu⟩
      cases o <;> exact if_pos hz
    · obtain ⟨l₁, e1, e2, e3⟩ := cutOrder_eq o l.n fuel (l := l) le_rfl hn
      obtain ⟨h1, h2, h3, -⟩ := initOrder_left o l.n l.mm (p := l.p) le_rfl
      rw [← e2] at h1 h2 h3
      dsimp only at h1 h2 h3
      have hcut : cutBlocks fuel (turns + 1) o (2 ^ o) l =
          cutBlocks fuel turns (u32Sub o 1) (2 ^ o / 2) l₁ := by
        rw [cutBlocks, if_pos hz]
        simp only [e1, bind, Except.bind]
      have hused : ∀ u ∈ l₁.used, u ≤ o ∨ u ∈ l.used := fun u hu => (e3 u hu).imp_left fun e => e.le
      rw [hcut]
      cases o with
      | zero =>
        obtain ⟨turns, rfl⟩ : ∃ t, turns = t + 1 := ⟨turns - 1, by omega⟩
        have hz₁ : l₁.n = 0 := by
          rw [pow_zero] at h2
          exact Nat.lt_one_iff.mp h2
        refine ⟨l₁, cutBlocks_done hz₁, ?_, hz₁, by omega, hused⟩
        unfold initBlocks
        rw [if_neg hz, ← e2]
        exact if_pos hz₁
      | succ o =>
        have hlt : o + 1 < 2 ^ 32 := by
          have : maxOrder = 10 := rfl
          omega
        have hhalf : 2 ^ (o + 1) / 2 = 2 ^ o := by
          rw [pow_succ, Nat.mul_div_cancel _ (by decide)]
        rw [u32Sub_of_le hlt (by omega), Nat.add_sub_cancel, hhalf]
        obtain ⟨l', g1, g2, g3, g4, g5⟩ := cutBlocks_eq fuel o turns (l := l₁) (by omega)
          (by omega) (by omega)
        refine ⟨l', g1, ?_, g3, g4.trans h3, fun u hu => ?_⟩
        · unfold initBlocks
          rw [if_neg hz, ← e2]
          exact g2
        · rcases g5 u hu with hu | hu
          · exact .inl (by omega)
          · exact hused u hu

/-- `buddy_page_init` with its loops as they are written. -/
def pageInitLoops (fuel turns start : Nat) (s : BuddyMm) (pages n : Nat) : Kern BuddyMm := do
  let mmAddrStart ← pageToAddr start pages
  let last ← pageToAddr start (u32Sub (pages + n) 1)
  let l ← cutBlocks fuel turns maxOrder (2 ^ maxOrder) (.start
    ⟨s.mem, s.nrFree, pages, mmAddrStart, u32 (last + pageSize), n, n⟩ pages n)
  buddyTestMm start l.mm

theorem buddyPageInit_loops {fuel turns n : Nat} (start pages : Nat) (hfuel : n < fuel)
    (hturns : maxOrder + 1 < turns) :
    buddyPageInit start s pages n = pageInitLoops fuel turns start s pages n := by
  unfold buddyPageInit pageInitLoops
  refine bind_congr fun mmAddrStart => bind_congr fun last => ?_
  obtain ⟨l', h1, h2, -⟩ := cutBlocks_eq fuel maxOrder turns (l := .start
    ⟨s.mem, s.nrFree, pages, mmAddrStart, u32 (last + pageSize), n, n⟩ pages n) le_rfl hfuel hturns
  rw [h1]
  exact congrArg (· >>= buddyTestMm start) h2

/-! ## What a block keeps -/

/-- A zeroed descriptor that heads a block of order `o`. -/
def blockHead (o : Nat) : Page := (Page.zero.setNum o).setFlag pgOrder

/-- The first `p` of `N` pages are cut into the blocks `fl`. -/
structure Laid (N : Nat) (s : BuddyMm) (fl : FreeLists) (p : Nat) : Prop where
  linked : Linked s fl
  canon : Canon fl
  exact : Exact p (blocks fl)
  single : ∀ o < maxOrder, fl o ≠ [] → (fl o).length = 1 ∧ ¬ 2 ^ (o + 1) ∣ p
  headed : ∀ o ≤ maxOrder, ∀ i ∈ fl o, s.mem.page (.entry i) = blockHead o
  rest : ∀ i < N, (∀ o ≤ maxOrder, i ∉ fl o) → s.mem.page (.entry i) = Page.zero

/-- A block at a multiple of twice its size makes the cursor no multiple of a higher power that it
was no multiple of before. -/
theorem not_dvd_next {p o q : Nat} (hq : o ≤ q) (ha : 2 ^ (o + 1) ∣ p) :
    ¬ 2 ^ (q + 1) ∣ p + 2 ^ o := by
  intro hd
  have hd' : 2 ^ (o + 1) ∣ p + 2 ^ o := (Nat.pow_dvd_pow 2 (by omega)).trans hd
  have := Nat.le_of_dvd (Nat.two_pow_pos o) ((Nat.dvd_add_right ha).mp hd')
  have := Nat.pow_lt_pow_right (by decide : 1 < 2) (Nat.lt_succ_self o)
  omega

theorem Laid.single_next {p : Nat} (h : Laid N s fl p) (hb : o < maxOrder → 2 ^ (o + 1) ∣ p)
    (ha : 2 ^ o ∣ p) : ∀ q < maxOrder, put fl p o q ≠ [] →
      (put fl p o q).length = 1 ∧ ¬ 2 ^ (q + 1) ∣ p + 2 ^ o := by
  intro q hq hne
  by_cases hqo : q = o
  · subst hqo
    have hnil : fl q = [] := not_not.mp fun hne => (h.single q hq hne).2 (hb hq)
    rw [put_self, hnil]
    exact ⟨rfl, not_dvd_next le_rfl (hb hq)⟩
  · rw [put_of_ne fl p hqo] at hne ⊢
    obtain ⟨h1, h2⟩ := h.single q hq hne
    -- the block is of a higher order than this one
    have hoq : o < q := by
      by_contra hlt
      exact h2 ((Nat.pow_dvd_pow 2 (by omega)).trans ha)
    exact ⟨h1, not_dvd_next hoq.le (hb (hoq.trans hq))⟩

/-- **The next block.** -/
theorem laid_kept (N : Nat) : Kept N (Laid N) := by
  intro s fl p o h ho ha hb hN
  have hpos := Nat.two_pow_pos o
  have hnew : ∀ o' ≤ maxOrder, p ∉ fl o' := fun o' ho' => notMem_of_exact h.exact ho' le_rfl
  have hself : (putBlock s p o).mem.page (.entry p) = blockHead o := by
    rw [putBlock_page_self, h.rest p (by omega) hnew]
    rfl
  refine ⟨h.linked.put ho hnew, canon_next h.canon h.exact ho ha hb, exact_next h.exact ho,
    h.single_next hb ha, fun q hq i hi => ?_, fun i hi hno => ?_⟩
  · by_cases hip : i = p
    · subst hip
      by_cases hqo : q = o
      · rw [hself, hqo]
      · rw [put_of_ne fl i hqo] at hi
        exact absurd hi (hnew q hq)
    · rw [putBlock_page_ne hip]
      refine h.headed q hq i ?_
      by_cases hqo : q = o
      · subst hqo
        rw [put_self] at hi
        exact (List.mem_cons.mp hi).resolve_left hip
      · rwa [put_of_ne fl p hqo] at hi
  · have hip : i ≠ p := by
      rintro rfl
      exact hno o ho (mem_put_self fl i o)
    rw [putBlock_page_ne hip]
    exact h.rest i hi fun q hq hm => hno q hq (mem_put hm)

/-! ## The blocks at the end -/

/-- The manager's memory holds the blocks `fl`, which share out `N` pages: rings and counters, each
block at a multiple of its size, one at most of each order below the highest, `PG_ORDER` on the first
pages of the blocks alone, and their order there; the other descriptors are still zero. -/
structure Decomposed (N : Nat) (s : BuddyMm) (fl : FreeLists) : Prop where
  ring : ∀ o ≤ maxOrder, LinkRing s.mem.links (.head o) ((fl o).map .entry)
  nr : ∀ o ≤ maxOrder, s.nrFree o = (fl o).length
  exact : Exact N (blocks fl)
  aligned : ∀ o ≤ maxOrder, ∀ i ∈ fl o, 2 ^ o ∣ i
  single : ∀ o < maxOrder, (fl o).length ≤ 1
  flagged : ∀ i < N, (s.mem.page (.entry i)).isOrder = true ↔ ∃ o ≤ maxOrder, i ∈ fl o
  order : ∀ o ≤ maxOrder, ∀ i ∈ fl o, (s.mem.page (.entry i)).num = o
  rest : ∀ i < N, (∀ o ≤ maxOrder, i ∉ fl o) → s.mem.page (.entry i) = Page.zero

theorem Laid.decomposed (h : Laid N s fl N) : Decomposed N s fl := by
  refine ⟨h.linked.ring, h.linked.nr, h.exact, h.canon.aligned, fun o ho => ?_, fun i hi => ?_,
    fun o ho i hi => (h.linked.head o ho i hi).2, h.rest⟩
  · by_cases hnil : fl o = []
    · rw [hnil]
      exact Nat.zero_le _
    · exact (h.single o ho hnil).1.le
  · constructor
    · intro hf
      by_contra hno
      rw [h.rest i hi fun o ho hm => hno ⟨o, ho, hm⟩] at hf
      exact absurd hf (by decide)
    · rintro ⟨o, ho, hm⟩
      exact (h.linked.head o ho i hm).1

theorem initFreeAreas_laid (hzero : ∀ i < N, s.mem.page (.entry i) = Page.zero) :
    Laid N ((List.range (maxOrder + 1)).foldl initFreeArea s) (fun _ => []) 0 := by
  refine ⟨initFreeAreas_linked s, canon_nil, exact_nil_blocks, fun _ _ hne => absurd rfl hne,
    fun _ _ _ hi => absurd hi List.not_mem_nil, fun i hi _ => ?_⟩
  rw [(initFreeAreas_spec _ s).2.1]
  exact hzero i hi

/-- **The loops of `buddy_page_init` end, index within the arrays, and decompose the memory.** They are
the loops that `buddy_page_init` runs. -/
theorem pageInit_decomposes {fuel turns : Nat} (s : BuddyMm) (N : Nat)
    (hzero : ∀ i < N, s.mem.page (.entry i) = Page.zero) (hfuel : N < fuel)
    (hturns : maxOrder + 1 < turns) :
    (∀ start s₀, buddyPageInit start s₀ 0 N = pageInitLoops fuel turns start s₀ 0 N) ∧
    ∃ l fl, cutBlocks fuel turns maxOrder (2 ^ maxOrder) (.start s 0 N) = .ok l ∧ l.n = 0 ∧ l.p = N ∧
      (∀ o ∈ l.used, o ≤ maxOrder) ∧ Decomposed N l.mm fl := by
  refine ⟨fun start _ => buddyPageInit_loops start 0 hfuel hturns, ?_⟩
  obtain ⟨l, h1, h2, h3, h4, h5⟩ := cutBlocks_eq fuel maxOrder turns (l := .start s 0 N)
    le_rfl hfuel hturns
  obtain ⟨s', fl, g1, g2⟩ := initBlocks_kept (laid_kept N) (n := N) maxOrder
    (initFreeAreas_laid hzero) (Nat.add_zero N) le_rfl (Nat.dvd_zero _)
    fun hlt => absurd hlt (Nat.lt_irrefl _)
  obtain rfl : l.mm = s' := Except.ok.inj (h2.symm.trans g1)
  exact ⟨l, fl, h1, h3, h4, fun o ho => (h5 o ho).resolve_right List.not_mem_nil, g2.decomposed⟩

/-- 2069 pages of zeroed descriptors. -/
theorem pageInit_decomposes_2069 :
    (∀ start s₀, buddyPageInit start s₀ 0 2069 = pageInitLoops 2070 12 start s₀ 0 2069) ∧
    ∃ l fl, cutBlocks 2070 12 maxOrder (2 ^ maxOrder) (.start
        ⟨⟨⟨id, id⟩, fun _ => Page.zero⟩, fun _ => 0, 0, 0, 0, 2069, 2069⟩ 0 2069) = .ok l ∧
      l.n = 0 ∧ l.p = 2069 ∧ (∀ o ∈ l.used, o ≤ maxOrder) ∧ Decomposed 2069 l.mm fl :=
  pageInit_decomposes _ 2069 (fun _ _ => rfl) (by decide) (by decide)

end Hurlex.Buddy
