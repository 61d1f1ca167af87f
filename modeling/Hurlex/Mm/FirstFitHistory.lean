import Hurlex.Mm.FirstFitRuns

/-!
# Histories of the First-Fit manager

`Run M ok` are the states of all histories of `ff_alloc_pages` and `ff_free_pages` from
`ff_page_init` in which every request meets `ok`; a free hands back what an allocation returned.

`ff_alloc_pages` gives out the first page of the list whether or not a run of `n` pages starts
there: the `return` stands at the end of the loop's body, behind the `if` that takes the pages off
the list. Histories in which the first run is always long enough (`firstFits`) keep the live
allocations apart from each other and from the free list (`firstFits_exclusive`);
`alloc_past_first_run` is one that does not.
-/

namespace Hurlex.FirstFit

open Lib

/-- The manager and the allocations its clients hold: returned and not freed since. -/
structure Client where
  mm : FfMm
  live : List (Nat × Nat)

/-- **Exclusive use of pages**: the live allocations are apart and inside the managed pages, and the
free list holds each page of no live allocation once, and no other. -/
structure Exclusive (M : PhyMem) (c : Client) : Prop where
  disjoint : c.live.Pairwise fun x y => Disjoint (M.liveSeg x).cells (M.liveSeg y).cells
  inside : ∀ x ∈ c.live, x.1 = M.addr (M.index x.1) ∧ M.index x.1 + x.2 ≤ M.count
  free : ∃ free : List Nat, LinkRing c.mm.mem.links freeList (free.map .entry) ∧ free.Nodup ∧
    ∀ i, i ∈ free ↔ i < M.count ∧ ∀ x ∈ c.live, i ∉ (M.liveSeg x).cells

/-- The histories from `ff_page_init` over zeroed descriptors in which every request meets `ok`. -/
inductive Run (M : PhyMem) (ok : FfMm → Nat → Bool) : Client → Prop
  | init {s s' : FfMm} (hzero : ∀ i < M.count, s.mem.page (.entry i) = Page.zero)
    (h : ffPageInit M.start s 0 M.count = .ok s') : Run M ok ⟨s', []⟩
  | alloc {c : Client} {s' : FfMm} {n addr : Nat} (hc : Run M ok c) (hn : n < 2 ^ 32)
    (hok : ok c.mm n = true) (h : ffAllocPages M.start c.mm n = .ok (s', addr)) :
    Run M ok ⟨s', if addr = 0 then c.live else (addr, n) :: c.live⟩
  | free {c : Client} {s' : FfMm} {n addr : Nat} (hc : Run M ok c) (hl : (addr, n) ∈ c.live)
    (h : ffFreePages M.start c.mm addr n = .ok s') : Run M ok ⟨s', c.live.erase (addr, n)⟩

/-- The first page of `free_list`, if `ff_alloc_pages` gets there, heads a run of `n` pages. -/
def firstFits (s : FfMm) (n : Nat) : Bool :=
  if n = 0 ∨ n > s.phyPageNowCount then true
  else
    match s.mem.links.next freeList with
    | .head _ => true
    | .entry p => headsRun s.mem p n

variable {M : PhyMem} {s s' : FfMm} {l : List Seg}

/-! ## `ff_page_init` -/

theorem initPages_spec : ∀ (n b : Nat) (mem : PageMem Unit) (xs : List PageNode),
    LinkRing mem.links freeList xs → (∀ i, b ≤ i → i < b + n → .entry i ∉ xs) →
    LinkRing ((List.range' b n).foldl initPage mem).links freeList (xs ++ nodes (b, n)) ∧
      ∀ i, ((List.range' b n).foldl initPage mem).page (.entry i) =
        if b ≤ i ∧ i < b + n then (mem.page (.entry i)).setFlag pgReserved
        else mem.page (.entry i)
  | 0, b, mem, xs, hr, _ => by
    refine ⟨by simpa [nodes, Seg.pages] using hr, fun i => ?_⟩
    rw [if_neg (by omega)]
    rfl
  | n + 1, b, mem, xs, hr, hnew => by
    have hx : (Node.entry b : PageNode) ∉ freeList :: xs := by
      rw [List.mem_cons, not_or]
      exact ⟨by simp, hnew b (by omega) (by omega)⟩
    have hr1 : LinkRing (initPage mem b).links freeList (xs ++ [.entry b]) :=
      listAddBefore_ring hr hx
    obtain ⟨h1, h2⟩ := initPages_spec n (b + 1) (initPage mem b) (xs ++ [.entry b]) hr1
      fun i hi hi' hm => by
        rcases List.mem_append.mp hm with hm | hm
        · exact hnew i (by omega) (by omega) hm
        · have := Node.entry.inj (List.mem_singleton.mp hm)
          omega
    rw [List.range'_succ, List.foldl_cons, nodes_succ, List.append_cons]
    refine ⟨h1, fun i => (h2 i).trans ?_⟩
    by_cases hi : i = b
    · subst hi
      rw [if_neg (by omega), if_pos (by omega)]
      exact mem.modify_self _ _
    · have hne : (Node.entry i : PageNode) ≠ .entry b := fun e => hi (Node.entry.inj e)
      have hp : (initPage mem b).page (.entry i) = mem.page (.entry i) := mem.modify_of_ne hne _
      rw [hp]
      by_cases hc : b + 1 ≤ i ∧ i < b + 1 + n
      · rw [if_pos hc, if_pos (by omega)]
      · rw [if_neg hc, if_neg (by omega)]

/-- After `ff_page_init` all pages are one free run, and have `PG_RESERVED` set. -/
theorem ffPageInit_spec (hzero : ∀ i < M.count, s.mem.page (.entry i) = Page.zero)
    (h : ffPageInit M.start s 0 M.count = .ok s') : Rep M s' [(0, M.count)] ∧
      ∀ i < M.count, (s'.mem.page (.entry i)).isReserved = true := by
  have hpos := M.count_pos
  have hlt := M.count_lt
  have hlast : u32Sub (0 + M.count) 1 = M.count - 1 := by
    rw [Nat.zero_add, u32Sub_of_le (by omega) hpos]
  rw [ffPageInit, M.pageToAddr_eq (Nat.zero_le _), hlast, M.pageToAddr_eq (by omega)] at h
  obtain rfl := Except.ok.inj h
  have hring := initListHead_ring s.mem.links freeList
  obtain ⟨h1, h2⟩ := initPages_spec M.count 0
    { s.mem with links := initListHead s.mem.links freeList } [] hring (by simp)
  have hp (i : Nat) (hi : i < M.count) : ((List.range' 0 M.count).foldl initPage
      { s.mem with links := initListHead s.mem.links freeList }).page (.entry i) =
      Page.zero.setFlag pgReserved := by
    rw [h2, if_pos (by omega)]
    simp only [hzero i hi]
  refine ⟨⟨?_, .singleton hpos, by simp, fun i hi => ?_, rfl, by simp [total]⟩, fun i hi => ?_⟩
  · simpa [nodesOf, nodes, cellsOf] using h1
  · simp only [PageMem.modify, Function.update_self, Function.update_idem, Function.update_apply,
      Node.entry.injEq, headLen]
    by_cases h0 : i = 0
    · subst h0
      simp [hpos]
    · rw [if_neg h0, if_neg (Ne.symm h0), hp i hi]
      exact ⟨rfl, by decide⟩
  · simp only [PageMem.modify, Function.update_self, Function.update_idem, Function.update_apply,
      Node.entry.injEq]
    split
    · simp [hp 0 hpos]
    · rw [hp i hi]
      decide

theorem ffPageInit_rep (hzero : ∀ i < M.count, s.mem.page (.entry i) = Page.zero)
    (h : ffPageInit M.start s 0 M.count = .ok s') : Rep M s' [(0, M.count)] :=
  (ffPageInit_spec hzero h).1

/-! ## What the live allocations are -/

/-- The live allocations and the free runs share out the managed pages. -/
structure Shares (M : PhyMem) (c : Client) (l : List Seg) : Prop where
  rep : Rep M c.mm l
  exact : Exact M.count (l ++ c.live.map M.liveSeg)
  live : ∀ x ∈ c.live, x.1 = M.addr (M.index x.1) ∧ 0 < x.2 ∧
    (c.mm.mem.page (.entry (M.index x.1))).isReserved = false

theorem firstFits_nil {n : Nat} (h : Rep M s []) : firstFits s n = true := by
  have hnext : s.mem.links.next freeList = freeList := (LinkRing.nil_iff.mp h.ring).1
  unfold firstFits
  rw [hnext]
  split <;> rfl

/-- The condition, on the runs: the first of them has the `n` pages, if there are `n` free pages. -/
theorem firstFits_iff {r : Seg} {n : Nat} (h : Rep M s (r :: l)) :
    firstFits s n = true ↔ n = 0 ∨ n > total (r :: l) ∨ n ≤ r.2 := by
  unfold firstFits
  rw [h.now, h.next_first]
  by_cases hn : n = 0 ∨ n > total (r :: l)
  · rw [if_pos hn]
    simp only [true_iff]
    tauto
  · rw [if_neg hn]
    simp only [h.headsRun_first, decide_eq_true_eq]
    tauto

/-- An allocation from the first run, or nothing. -/
theorem ffAllocPages_cases {n : Nat} (h : Rep M s l) (hok : firstFits s n = true) :
    ffAllocPages M.start s n = .ok (s, 0) ∨
      ∃ r l', l = r :: l' ∧ 0 < n ∧ n ≤ r.2 := by
  by_cases hn : n = 0 ∨ n > s.phyPageNowCount
  · left
    rw [ffAllocPages, if_pos hn]
  · cases l with
    | nil =>
      left
      have hnext : s.mem.links.next freeList = freeList := (LinkRing.nil_iff.mp h.ring).1
      rw [ffAllocPages, if_neg hn, hnext]
    | cons r l =>
      right
      rw [h.now] at hn
      have := (firstFits_iff h).mp hok
      exact ⟨r, l, rfl, by omega, by omega⟩

/-- **A request the first run is too short for gets the run's first page all the same**, and the
free list stays as it was. -/
theorem ffAllocPages_short {r : Seg} {n : Nat} (h : Rep M s (r :: l))
    (hok : firstFits s n = false) :
    ∃ s', ffAllocPages M.start s n = .ok (s', M.addr r.1) ∧ s'.mem.links = s.mem.links := by
  have hin := h.inside r List.mem_cons_self
  have hn : ¬ (n = 0 ∨ n > total (r :: l) ∨ n ≤ r.2) := by
    rw [← firstFits_iff h, hok]
    simp
  have htest : headsRun s.mem r.1 n = false :=
    (h.headsRun_first n).trans (decide_eq_false (by omega))
  obtain ⟨c1, -⟩ := @cutRun_spec s.mem (.entry r.1) _ n _ h.note_first.1 fun hlt => by omega
  refine ⟨⟨cutRun s.mem r.1 (.entry r.1) n, s.mmAddrStart, s.mmAddrEnd, s.phyPageCount,
    u32Sub s.phyPageNowCount n⟩, ?_, c1⟩
  rw [ffAllocPages, if_neg (by rw [h.now]; omega), h.next_first]
  simp only [htest, M.pageToAddr_eq (by omega : r.1 ≤ M.count)]
  rfl

theorem shares_alloc {c : Client} {r : Seg} {n : Nat} (h : Shares M c (r :: l)) (hn : 0 < n)
    (hle : n ≤ r.2) : ∃ s', ffAllocPages M.start c.mm n = .ok (s', M.addr r.1) ∧
      Shares M ⟨s', (M.addr r.1, n) :: c.live⟩ (takeFront r n l) := by
  obtain ⟨s', h1, h2, h3⟩ := ffAllocPages_first h.rep hn hle
  have hseg : M.liveSeg (M.addr r.1, n) = (r.1, n) := by rw [PhyMem.liveSeg, M.index_addr]
  refine ⟨s', h1, h2, fun p => ?_, fun x hx => ?_⟩
  · have hperm : (takeFront r n l ++ (r.1, n) :: c.live.map M.liveSeg).Perm
        ((r.1, n) :: takeFront r n l ++ c.live.map M.liveSeg) := List.perm_middle
    rw [List.map_cons, hseg, cover_perm hperm, cover_append, takeFront_cover hle, ← cover_append]
    exact h.exact p
  · rcases List.mem_cons.mp hx with rfl | hx
    · simp only [M.index_addr, h3, true_and]
      exact ⟨hn, by simp [hn]⟩
    · obtain ⟨l1, l2, l3⟩ := h.live x hx
      exact ⟨l1, l2, by rw [h3, l3, Bool.and_false]⟩

/-- **Freeing a live allocation returns, and gives its pages back.** -/
theorem shares_free {c : Client} {x : Nat × Nat} (h : Shares M c l) (hx : x ∈ c.live) :
    ∃ s' l', ffFreePages M.start c.mm x.1 x.2 = .ok s' ∧ Shares M ⟨s', c.live.erase x⟩ l' ∧
      SameReserved c.mm.mem s'.mem ∧ ∃ t ∈ l', M.index x.1 ∈ t.cells := by
  obtain ⟨x1, x2, x3⟩ := h.live x hx
  have hmem : M.liveSeg x ∈ c.live.map M.liveSeg := List.mem_map_of_mem hx
  have hin : M.index x.1 + x.2 ≤ M.count := h.exact.bound (List.mem_append_right _ hmem) x2
  have hdis := (List.pairwise_append.mp h.exact.disjoint).2.2
  obtain ⟨A, B, s', rfl, f1, f2, f3⟩ := ffFreePages_apart h.rep x2 hin
    (fun t ht => hdis t ht _ hmem) x3
  rw [← x1] at f1
  refine ⟨s', _, f1, ⟨f2, fun p => ?_, fun y hy => ?_⟩, f3, ?_⟩
  · have hperm : (c.live.map M.liveSeg).Perm (M.liveSeg x :: (c.live.erase x).map M.liveSeg) :=
      (List.perm_cons_erase hx).map _
    have he := h.exact p
    rw [cover_append, cover_perm hperm, cover_cons] at he
    show cover (giveBack A (M.liveSeg x) B ++ (c.live.erase x).map M.liveSeg) p = _
    rw [cover_append, giveBack_cover, cover_cons, ← he]
    omega
  · obtain ⟨l1, l2, l3⟩ := h.live y (List.mem_of_mem_erase hy)
    exact ⟨l1, l2, (f3 _).trans l3⟩
  · rw [← cover_pos, giveBack_cover, cover_pos]
    exact ⟨(M.index x.1, x.2), List.mem_cons_self,
      Seg.mem_cells.mpr ⟨Nat.le_refl _, Nat.lt_add_of_pos_right x2⟩⟩

theorem shares_exclusive {c : Client} (h : Shares M c l) : Exclusive M c := by
  obtain ⟨-, hlive, hdis⟩ := List.pairwise_append.mp h.exact.disjoint
  rw [List.pairwise_map] at hlive
  refine ⟨hlive, fun x hx => ?_, cellsOf l, h.rep.ring, h.rep.runs.nodup,
    fun i => ?_⟩
  · obtain ⟨h1, h2, -⟩ := h.live x hx
    exact ⟨h1, h.exact.bound (List.mem_append_right _ (List.mem_map_of_mem hx)) h2⟩
  · rw [mem_cellsOf, h.exact.mem_iff]
    constructor
    · rintro ⟨t, ht, hi⟩
      refine ⟨⟨t, List.mem_append_left _ ht, hi⟩, fun x hx hix => ?_⟩
      exact Set.disjoint_left.mp (hdis t ht _ (List.mem_map_of_mem hx)) hi hix
    · rintro ⟨⟨t, ht, hi⟩, hno⟩
      rcases List.mem_append.mp ht with ht | ht
      · exact ⟨t, ht, hi⟩
      · obtain ⟨x, hx, rfl⟩ := List.mem_map.mp ht
        exact absurd hi (hno x hx)

theorem shares_init (hzero : ∀ i < M.count, s.mem.page (.entry i) = Page.zero)
    (h : ffPageInit M.start s 0 M.count = .ok s') : Shares M ⟨s', []⟩ [(0, M.count)] := by
  refine ⟨ffPageInit_rep hzero h, fun p => ?_, by simp⟩
  simp [cover_cons]

theorem run_shares {c : Client} (hc : Run M firstFits c) : ∃ l, Shares M c l := by
  induction hc with
  | init hzero h => exact ⟨_, shares_init hzero h⟩
  | @alloc c s' n addr _ _ hok h ih =>
    obtain ⟨l, hs⟩ := ih
    rcases ffAllocPages_cases hs.rep hok with hk | ⟨r, l, rfl, hn, hle⟩
    · rw [hk] at h
      cases h
      exact ⟨l, hs⟩
    · obtain ⟨t, hk, ht⟩ := shares_alloc hs hn hle
      rw [hk] at h
      cases h
      rw [if_neg (M.addr_ne_zero _)]
      exact ⟨_, ht⟩
  | @free c s' n addr _ hl h ih =>
    obtain ⟨l, hs⟩ := ih
    obtain ⟨t, l', hk, ht, -⟩ := shares_free hs hl
    rw [hk] at h
    cases h
    exact ⟨l', ht⟩

/-- The condition leaves out only requests that reach the defect: after any other one, a page of
the new allocation is still on the free list. -/
theorem short_not_exclusive {c : Client} {n : Nat} (hc : Run M firstFits c)
    (hok : firstFits c.mm n = false) : ∃ s' addr, addr ≠ 0 ∧
      ffAllocPages M.start c.mm n = .ok (s', addr) ∧ ¬ Exclusive M ⟨s', (addr, n) :: c.live⟩ := by
  obtain ⟨l, h⟩ := run_shares hc
  cases l with
  | nil =>
    rw [firstFits_nil h.rep] at hok
    simp at hok
  | cons r l =>
    obtain ⟨s', h1, h2⟩ := ffAllocPages_short h.rep hok
    have hn : n ≠ 0 := by
      rintro rfl
      rw [(firstFits_iff h.rep).mpr (Or.inl rfl)] at hok
      simp at hok
    refine ⟨s', M.addr r.1, M.addr_ne_zero _, h1, fun hex => ?_⟩
    obtain ⟨free, hring, -, hfree⟩ := hex.free
    have hmem : (Node.entry r.1 : PageNode) ∈ free.map .entry := by
      rw [← hring.onList_iff]
      have hlinks : LinkRing s'.mem.links freeList (nodesOf (r :: l)) := h2 ▸ h.rep.ring
      rw [hlinks.onList_iff, entry_mem_nodesOf]
      have := h.rep.runs.pos r List.mem_cons_self
      exact ⟨r, List.mem_cons_self, Seg.mem_cells.mpr (by omega)⟩
    obtain ⟨i, hi, e⟩ := List.mem_map.mp hmem
    obtain rfl := Node.entry.inj e
    refine ((hfree _).mp hi).2 (M.addr r.1, n) List.mem_cons_self ?_
    rw [PhyMem.liveSeg, M.index_addr, Seg.mem_cells]
    simp only
    omega

/-- **Exclusive use of pages in every history whose requests find a long enough first run**, and
every live allocation can be freed. -/
theorem firstFits_exclusive {c : Client} (hc : Run M firstFits c) :
    Exclusive M c ∧
      ∀ x ∈ c.live, ∃ s', ffFreePages M.start c.mm x.1 x.2 = .ok s' := by
  obtain ⟨l, h⟩ := run_shares hc
  refine ⟨shares_exclusive h, fun x hx => ?_⟩
  obtain ⟨s', -, h1, -⟩ := shares_free h hx
  exact ⟨s', h1⟩

/-! ## Three pages -/

/-- Three managed pages from 2 MB on. -/
def phyMem3 : PhyMem := ⟨0x200000, 3, PhyMem.aligned_2M, PhyMem.kernel_2M, by decide, by decide⟩

/-- The manager's memory before `ff_page_init`: zeroed. -/
def zeroMm : FfMm := ⟨⟨⟨fun x => x, fun x => x⟩, fun _ => Page.zero⟩, 0, 0, 0, 0⟩

/-- All three pages are free after `ff_page_init`. -/
theorem exists_init (ok : FfMm → Nat → Bool) :
    ∃ s, Run phyMem3 ok ⟨s, []⟩ ∧ Rep phyMem3 s [(0, phyMem3.count)] := by
  obtain ⟨s, h⟩ : ∃ s, ffPageInit phyMem3.start zeroMm 0 phyMem3.count = .ok s := ⟨_, rfl⟩
  exact ⟨s, .init (fun _ _ => rfl) h, ffPageInit_rep (fun _ _ => rfl) h⟩

theorem Run.alloc_live {ok : FfMm → Nat → Bool} {c : Client} {n addr : Nat} (hc : Run M ok c)
    (hn : n < 2 ^ 32) (hok : ok c.mm n = true)
    (h : ffAllocPages M.start c.mm n = .ok (s', addr)) (hne : addr ≠ 0) :
    Run M ok ⟨s', (addr, n) :: c.live⟩ := by
  have := hc.alloc hn hok h
  rwa [if_neg hne] at this

/-- Two pages and one are taken, the two are given back, and the first of them is taken again. -/
theorem firstFits_exclusive_again : ∃ s, Exclusive phyMem3 ⟨s, [(0x200000, 1), (0x202000, 1)]⟩ ∧
    ∀ x ∈ [(0x200000, 1), (0x202000, 1)], ∃ s', ffFreePages phyMem3.start s x.1 x.2 = .ok s' := by
  obtain ⟨s₀, c₀, r₀⟩ := exists_init firstFits
  obtain ⟨s₁, h₁, r₁, u₁⟩ := ffAllocPages_first (n := 2) r₀ (by decide) (by decide)
  have c₁ : Run phyMem3 firstFits ⟨s₁, [(0x200000, 2)]⟩ :=
    c₀.alloc_live (by decide) ((firstFits_iff r₀).mpr (by decide)) h₁ (by decide)
  obtain ⟨s₂, h₂, r₂, u₂⟩ := ffAllocPages_first (n := 1) r₁ (by decide) (by decide)
  have c₂ : Run phyMem3 firstFits ⟨s₂, [(0x202000, 1), (0x200000, 2)]⟩ :=
    c₁.alloc_live (by decide) ((firstFits_iff r₁).mpr (by decide)) h₂ (by decide)
  have hres : (s₂.mem.page (.entry 0)).isReserved = false := by rw [u₂, u₁]; rfl
  obtain ⟨s₃, h₃, r₃, -⟩ := ffFreePages_rep (A := []) (b := 0) (n := 2) r₂ (by decide) (by decide)
    (by decide) (by decide) hres
  have c₃ : Run phyMem3 firstFits ⟨s₃, [(0x202000, 1)]⟩ :=
    c₂.free (List.mem_cons_of_mem _ List.mem_cons_self) h₃
  obtain ⟨s₄, h₄, -, -⟩ := ffAllocPages_first (n := 1) r₃ (by decide) (by decide)
  have c₄ : Run phyMem3 firstFits ⟨s₄, [(0x200000, 1), (0x202000, 1)]⟩ :=
    c₃.alloc_live (by decide) ((firstFits_iff r₃).mpr (by decide)) h₄ (by decide)
  exact ⟨s₄, firstFits_exclusive c₄⟩

/-- Pages 0 and 1 are taken one at a time, page 0 is freed, and a request for two pages gets
pages 0 and 1, the second of which is still in use. -/
theorem alloc_past_first_run :
    ∃ s, Run phyMem3 (fun _ _ => true) ⟨s, [(0x200000, 2), (0x201000, 1)]⟩ ∧
      ¬ Exclusive phyMem3 ⟨s, [(0x200000, 2), (0x201000, 1)]⟩ := by
  obtain ⟨s₀, c₀, r₀⟩ := exists_init fun _ _ => true
  obtain ⟨s₁, h₁, r₁, u₁⟩ := ffAllocPages_first (n := 1) r₀ (by decide) (by decide)
  have c₁ : Run phyMem3 (fun _ _ => true) ⟨s₁, [(0x200000, 1)]⟩ :=
    c₀.alloc_live (by decide) rfl h₁ (by decide)
  obtain ⟨s₂, h₂, r₂, u₂⟩ := ffAllocPages_first (n := 1) r₁ (by decide) (by decide)
  have c₂ : Run phyMem3 (fun _ _ => true) ⟨s₂, [(0x201000, 1), (0x200000, 1)]⟩ :=
    c₁.alloc_live (by decide) rfl h₂ (by decide)
  have hres : (s₂.mem.page (.entry 0)).isReserved = false := by rw [u₂, u₁]; rfl
  obtain ⟨s₃, h₃, r₃, -⟩ := ffFreePages_rep (A := []) (b := 0) (n := 1) r₂ (by decide) (by decide)
    (by decide) (by decide) hres
  have c₃ : Run phyMem3 (fun _ _ => true) ⟨s₃, [(0x201000, 1)]⟩ :=
    c₂.free (List.mem_cons_of_mem _ List.mem_cons_self) h₃
  -- the first run is page 0 alone
  have hok : firstFits s₃ 2 = false := by
    rw [Bool.eq_false_iff, ne_eq, firstFits_iff r₃]
    decide
  obtain ⟨s₄, h₄, -⟩ := ffAllocPages_short r₃ hok
  have c₄ : Run phyMem3 (fun _ _ => true) ⟨s₄, [(0x200000, 2), (0x201000, 1)]⟩ :=
    c₃.alloc_live (by decide) rfl h₄ (by decide)
  refine ⟨s₄, c₄, fun h => ?_⟩
  have hdis := (List.pairwise_cons.mp h.disjoint).1 (0x201000, 1) List.mem_cons_self
  have h1 : 1 ∈ (phyMem3.liveSeg (0x200000, 2)).cells := Seg.mem_cells.mpr (by decide)
  have h2 : 1 ∈ (phyMem3.liveSeg (0x201000, 1)).cells := Seg.mem_cells.mpr (by decide)
  exact Set.disjoint_left.mp hdis h1 h2

end Hurlex.FirstFit
