import Hurlex.Mm.BuddyHistory

/-!
# One call on any well-formed buddy state

Right after its self-test the manager has lost alignment for good (`canonical_never`). `WellFormed`
is the state it was meant to keep: the lists, flags and counters agree, the free blocks are apart,
inside the memory and aligned, and no two buddies are both free. From any such state, reachable or
not:

**`buddyAllocPages_takes`**: `buddy_alloc_pages` takes exactly `n` pages, from the front of a block of
the least order that serves the request, or nothing.
**`buddyFreePagesSub_joins`**: `buddy_free_pages_sub` adds exactly its block to the free pages.

Both keep the state well formed. What does not is giving back pages that are no single block.
-/

namespace Hurlex.Buddy

open Lib

/-- The free pages: those of the blocks on the lists. -/
def BuddyMm.free (s : BuddyMm) : Set Nat :=
  {p | ∃ o ≤ maxOrder, ∃ i, OnFreeList s o i ∧ p ∈ Seg.cells (i, 2 ^ o)}

/-- A state as the buddy manager wants it. -/
structure WellFormed (M : PhyMem) (s : BuddyMm) : Prop where
  lists : ∃ fl, Marks M s fl ∧ (blocks fl).Pairwise fun t u => Disjoint t.cells u.cells
  inside : ∀ o ≤ maxOrder, ∀ i, OnFreeList s o i → i + 2 ^ o ≤ M.count
  canonical : Canonical s
  manages : Manages M s
  word : s.phyPageNowCount < 2 ^ 32

/-- The same, said of the lists the memory holds. -/
structure Holding (M : PhyMem) (s : BuddyMm) (fl : FreeLists) : Prop where
  rep : Rep M s fl
  fits : Fits M.count (blocks fl)
  canon : Canon fl

variable {M : PhyMem} {s s' : BuddyMm} {fl : FreeLists} {i o n : Nat}

theorem Rep.onFreeList_iff (h : Rep M s fl) (ho : o ≤ maxOrder) : OnFreeList s o i ↔ i ∈ fl o :=
  ⟨mem_of_onFreeList (h.ring o ho), fun hi => (h.ring o ho).onList_iff.2 (List.mem_map_of_mem hi)⟩

theorem Rep.free_eq (h : Rep M s fl) : s.free = {p | 0 < cover (blocks fl) p} := by
  ext p
  rw [Set.mem_ofPred_eq, cover_pos]
  constructor
  · rintro ⟨o, ho, i, hi, hp⟩
    exact ⟨(i, 2 ^ o), block_mem ho ((h.onFreeList_iff ho).1 hi), hp⟩
  · rintro ⟨t, ht, hp⟩
    obtain ⟨o, ho, i, hi, rfl⟩ := mem_blocks.1 ht
    exact ⟨o, ho, i, (h.onFreeList_iff ho).2 hi, hp⟩

theorem Holding.wellFormed (h : Holding M s fl) : WellFormed M s where
  lists := by
    refine ⟨fl, ⟨h.rep.ring, h.rep.nr, fun i hi => ⟨h.rep.flag i hi, ?_⟩, fun o ho i hi =>
      (h.rep.head o ho i hi).2⟩, h.fits.disjoint⟩
    rintro ⟨o, ho, hi⟩
    exact (h.rep.head o ho i hi).1
  inside _ ho _ hi := block_le h.fits ho ((h.rep.onFreeList_iff ho).1 hi)
  canonical := by
    refine ⟨fun o ho i hi => h.canon.aligned o ho i ((h.rep.onFreeList_iff ho).1 hi),
      fun o ho i hi hb => ?_⟩
    have ho' : o ≤ maxOrder := Nat.le_of_lt ho
    exact h.canon.coalesced o ho i ((h.rep.onFreeList_iff ho').1 hi)
      ((h.rep.onFreeList_iff ho').1 hb)
  manages := ⟨h.rep.base, h.rep.count⟩
  word := h.rep.word

theorem WellFormed.exists_holding (h : WellFormed M s) : ∃ fl, Holding M s fl := by
  obtain ⟨fl, hm, hd⟩ := h.lists
  have hon : ∀ o ≤ maxOrder, ∀ i ∈ fl o, OnFreeList s o i := fun o ho i hi =>
    (hm.ring o ho).onList_iff.2 (List.mem_map_of_mem hi)
  have hin : ∀ o ≤ maxOrder, ∀ i ∈ fl o, i + 2 ^ o ≤ M.count := fun o ho i hi =>
    h.inside o ho i (hon o ho i hi)
  refine ⟨fl, ⟨hm.ring, hm.nr, fun o ho i hi => ⟨(hm.flag i ?_).2 ⟨o, ho, hi⟩, hm.order o ho i hi⟩,
    fun i hi => (hm.flag i hi).1, h.manages.base, h.manages.count, h.word⟩,
    Fits.of_disjoint hd fun t ht => ?_, ⟨fun o ho i hi => ?_, fun o ho i hi hb => ?_⟩⟩
  · have := hin o ho i hi
    have := Nat.two_pow_pos o
    omega
  · obtain ⟨o, ho, i, hi, rfl⟩ := mem_blocks.1 ht
    exact hin o ho i hi
  · exact h.canonical.aligned o ho i (hon o ho i hi)
  · have ho' : o ≤ maxOrder := Nat.le_of_lt ho
    exact h.canonical.coalesced o ho i (hon o ho' i hi) (hon o ho' _ hb)

/-! ## `buddy_free_pages_sub` -/

/-- **`buddy_free_pages_sub` coalesces.** The loop ends, the block joins the free pages and the state
stays well formed, wherever the memory ends. -/
theorem buddyFreePagesSub_joins (h : WellFormed M s) (ho : o ≤ maxOrder) (ha : 2 ^ o ∣ i)
    (hin : i + 2 ^ o ≤ M.count) (hno : Disjoint s.free (Seg.cells (i, 2 ^ o))) :
    WellFormed M (buddyFreePagesSub s i o) ∧
      (buddyFreePagesSub s i o).free = s.free ∪ Seg.cells (i, 2 ^ o) := by
  obtain ⟨fl, hr, hfit, hc⟩ := h.exists_holding
  have hfit' : Fits M.count ((i, 2 ^ o) :: blocks fl) := by
    refine hfit.cons hin fun t ht => hno.symm.mono_right fun p hp => ?_
    rw [hr.free_eq]
    exact cover_pos.2 ⟨t, ht, hp⟩
  have hlt : ∀ p ≤ maxOrder, ∀ j ∈ fl p, j < M.count := fun p hp j hj => block_lt hfit hp hj
  obtain ⟨hr', -⟩ := buddyFreePagesSub_rep hr ho hfit'
  have hcover : ∀ p, cover (blocks (freeSub M.count fl i o)) p =
      cover ((i, 2 ^ o) :: blocks fl) p := freeSub_cover ho
  have hheld : Holding M (buddyFreePagesSub s i o) (freeSub M.count fl i o) :=
    ⟨hr', fun p => (hcover p).trans_le (hfit' p), freeSub_canon hc hlt ha ho⟩
  refine ⟨hheld.wellFormed, ?_⟩
  rw [hr'.free_eq, hr.free_eq]
  ext p
  simp only [Set.mem_union, Set.mem_ofPred_eq, hcover, cover_cons, Seg.mem_cells]
  split_ifs with hp
  · exact ⟨fun _ => Or.inr hp, fun _ => Nat.succ_pos _⟩
  · exact ⟨Or.inl, fun hq => hq.resolve_right hp⟩

/-- No free block, in a memory of 1400 pages. -/
def emptyMm : BuddyMm :=
  ⟨⟨⟨fun x => x, fun x => x⟩, fun _ => Page.zero⟩, fun _ => 0, 0, 0, 0, 1400, 0⟩

theorem blocks_nil : blocks (fun _ => []) = [] := by
  simp [blocks]

theorem holding_empty : Holding phyMem1400 emptyMm fun _ => [] := by
  refine ⟨⟨fun o _ => LinkRing.nil_iff.2 ⟨rfl, rfl⟩, fun _ _ => rfl, fun _ _ _ hi => ?_,
    fun i _ hf => ?_, rfl, rfl, by decide⟩, ?_, ⟨fun _ _ _ hi => ?_, fun _ _ _ hi => ?_⟩⟩
  · exact absurd hi List.not_mem_nil
  · have hz : Page.zero.isOrder = true := hf
    exact absurd hz (by decide)
  · rw [blocks_nil]
    exact Fits.of_disjoint List.Pairwise.nil fun t ht => absurd ht List.not_mem_nil
  · exact absurd hi List.not_mem_nil
  · exact absurd hi List.not_mem_nil

theorem emptyMm_free : emptyMm.free = ∅ := by
  rw [holding_empty.rep.free_eq, blocks_nil]
  exact Set.eq_empty_of_forall_notMem fun p hp => absurd hp (Nat.lt_irrefl 0)

/-- Eight pages are given back, and then their buddy: one block of sixteen is free. -/
theorem buddyFreePagesSub_joins_buddy :
    let s := buddyFreePagesSub emptyMm 1376 3
    (WellFormed phyMem1400 (buddyFreePagesSub s 1384 3) ∧
      (buddyFreePagesSub s 1384 3).free = s.free ∪ Seg.cells (1384, 2 ^ 3)) ∧
    (buddyFreePagesSub s 1384 3).nrFree 4 = 1 := by
  intro s
  obtain ⟨hwf, hfree⟩ : WellFormed phyMem1400 s ∧ s.free = emptyMm.free ∪ Seg.cells (1376, 2 ^ 3) := by
    refine buddyFreePagesSub_joins holding_empty.wellFormed (by decide) (by decide) (by decide) ?_
    rw [emptyMm_free]
    exact Set.empty_disjoint _
  refine ⟨buddyFreePagesSub_joins hwf (by decide) (by decide) (by decide) ?_, by decide⟩
  rw [hfree, emptyMm_free, Set.empty_union]
  refine Set.disjoint_left.2 fun p hp hp' => ?_
  rw [Seg.mem_cells] at hp hp'
  simp only at hp hp'
  omega

/-! ## `buddy_alloc_pages` -/

/-- There is a free block of order `o` or more. -/
def Serves (s : BuddyMm) (o : Nat) : Prop := ∃ c, o ≤ c ∧ c ≤ maxOrder ∧ ∃ i, OnFreeList s c i

/-- Block `i` of order `c` is free, and none from order `o` on is smaller. -/
structure Smallest (s : BuddyMm) (o c i : Nat) : Prop where
  ge : o ≤ c
  le : c ≤ maxOrder
  mem : OnFreeList s c i
  least : ∀ c', o ≤ c' → c' < c → ∀ j, ¬ OnFreeList s c' j

/-- `buddy_alloc_pages` takes the `n` pages from `i` on, and leads from `s` to `s'`. -/
structure Taken (M : PhyMem) (s : BuddyMm) (i n : Nat) (s' : BuddyMm) : Prop where
  call : buddyAllocPages M.start s n = .ok (s', M.addr i)
  wellFormed : WellFormed M s'
  sub : Seg.cells (i, n) ⊆ s.free
  free : s'.free = s.free \ Seg.cells (i, n)

/-- The pages in hand and the blocks left cover what the blocks did. -/
theorem taken_of_cover {fl' : FreeLists} (hr : Rep M s fl) (hfit : Fits M.count (blocks fl))
    (hcall : buddyAllocPages M.start s n = .ok (s', M.addr i)) (hr' : Rep M s' fl')
    (hc' : Canon fl') (hcover : ∀ p, cover ((i, n) :: blocks fl') p = cover (blocks fl) p) :
    Taken M s i n s' := by
  have hfit' : Fits M.count ((i, n) :: blocks fl') := fun p => (hcover p).trans_le (hfit p)
  refine ⟨hcall, Holding.wellFormed ⟨hr', hfit'.tail, hc'⟩, fun p hp => ?_, ?_⟩
  · rw [hr.free_eq]
    show 0 < cover (blocks fl) p
    rw [← hcover, cover_cons, if_pos (Seg.mem_cells.1 hp)]
    exact Nat.succ_pos _
  · rw [hr'.free_eq, hr.free_eq]
    ext p
    simp only [Set.mem_sdiff, Set.mem_ofPred_eq, ← hcover, cover_cons]
    by_cases hp : p ∈ Seg.cells (i, n)
    · refine ⟨fun hq => ?_, fun hq => absurd hp hq.2⟩
      obtain ⟨t, ht, hpt⟩ := cover_pos.1 hq
      exact absurd hp (hfit'.notMem ht hpt)
    · rw [if_neg (mt Seg.mem_cells.2 hp), Nat.add_zero]
      exact ⟨fun hq => ⟨hq, hp⟩, fun hq => hq.1⟩

/-- **`buddy_alloc_pages` takes exactly `n` pages**, off the front of a smallest block that serves the
request, whose order is the least that will do. -/
theorem buddyAllocPages_takes (h : WellFormed M s) (hn : 1 ≤ n) (hn' : n ≤ 1024)
    (hnow : n ≤ s.phyPageNowCount) : ∃ o, getOrder n = .ok o ∧ n ≤ 2 ^ o ∧ (∀ q < o, 2 ^ q < n) ∧
      (Serves s o → ∃ c i s', Smallest s o c i ∧ Taken M s i n s') ∧
      (¬ Serves s o → buddyAllocPages M.start s n = .ok (s, 0)) := by
  obtain ⟨fl, hr, hfit, hc⟩ := h.exists_holding
  refine ⟨orderOf n, getOrder_eq hn', le_orderOf hn', fun q hq => lt_of_lt_orderOf hq, fun hs => ?_,
    fun hno => ?_⟩
  · cases ha : allocPages M.count fl n with
    | none =>
      obtain ⟨c, h1, h2, i, hi⟩ := hs
      have hp := allocSub_none_iff.1 (Option.map_eq_none_iff.1 ha)
      have hnil := pick_eq_none hp c h1 h2
      rw [hr.onFreeList_iff h2, hnil] at hi
      exact absurd hi List.not_mem_nil
    | some r =>
      obtain ⟨fl', i⟩ := r
      obtain ⟨s', hcall, hr', -⟩ := buddyAllocPages_some hr hfit hn hn' hnow ha
      obtain ⟨hc', -, fl₁, hsub, -⟩ := allocPages_canon hc hfit hn hn' ha
      obtain ⟨c, is, hp, hfl, -⟩ := allocSub_some hsub
      obtain ⟨hge, hle, -⟩ := pick_some hp
      refine ⟨c, i, s', ⟨hge, hle, ?_, fun c' h1 h2 j hj => ?_⟩, ?_⟩
      · rw [hr.onFreeList_iff hle, hfl]
        exact List.mem_cons_self
      · rw [hr.onFreeList_iff (by omega), pick_least hp c' h1 h2] at hj
        exact absurd hj List.not_mem_nil
      · exact taken_of_cover hr hfit hcall hr' hc' (allocPages_cover hn' ha)
  · cases ha : allocPages M.count fl n with
    | none => exact buddyAllocPages_none hr hn' ha
    | some r =>
      obtain ⟨fl₁, hsub, -⟩ := allocPages_some ha
      obtain ⟨c, is, hp, hfl, -⟩ := allocSub_some hsub
      obtain ⟨hge, hle, -⟩ := pick_some hp
      refine absurd ⟨c, hge, hle, r.2, ?_⟩ hno
      rw [hr.onFreeList_iff hle, hfl]
      exact List.mem_cons_self

/-- Three of 1400 pages, from the lists `buddy_page_init` starts its self-test with. -/
theorem buddyAllocPages_takes_three : ∃ s, WellFormed phyMem1400 s ∧ s.phyPageNowCount = 1400 ∧
    ∃ o, getOrder 3 = .ok o ∧ 3 ≤ 2 ^ o ∧ (∀ q < o, 2 ^ q < 3) ∧
      (Serves s o → ∃ c i s', Smallest s o c i ∧ Taken phyMem1400 s i 3 s') ∧
      (¬ Serves s o → buddyAllocPages phyMem1400.start s 3 = .ok (s, 0)) := by
  obtain ⟨s, fl, -, hcut, hnow⟩ := buddyPageInit_eq (M := phyMem1400) (s := zeroMm) fun _ _ => rfl
  have hwf : WellFormed phyMem1400 s :=
    Holding.wellFormed ⟨hcut.rep, fun p => (hcut.exact p).le, hcut.canon⟩
  have hnow' : s.phyPageNowCount = 1400 := hnow
  exact ⟨s, hwf, hnow', buddyAllocPages_takes hwf (by decide) (by decide) (by rw [hnow']; decide)⟩

end Hurlex.Buddy
