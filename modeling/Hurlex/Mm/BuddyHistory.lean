import Hurlex.Mm.BuddySelfTest

/-!
# Histories of the buddy manager

`Run M s₀` are the states of all histories of `buddy_alloc_pages` and `buddy_free_pages` from the
state `s₀` right after `buddy_page_init`; a free hands back what an allocation returned.

* From 1400 pages on, and only then, every history keeps the free blocks and the live allocations
  apart (`exclusive_iff`). With fewer pages the self-test in `buddy_page_init` frees pages at
  address `0`.
* Alignment is lost in every history: the self-test frees 18 pages, whose pieces are cut from the
  low bit up (`canonical_never`).
* So is the page count: an allocation whose size is no power of two adds the tail of its block to
  the counter, which had never taken it off (`accounts_never`).
-/

namespace Hurlex.Buddy

open Lib

/-- The manager and the allocations its clients hold: returned and not freed since. -/
structure Client where
  mm : BuddyMm
  live : List (Nat × Nat)

/-- The state right after `buddy_page_init` over zeroed descriptors. -/
def Initial (M : PhyMem) (s₀ : BuddyMm) : Prop :=
  ∃ s : BuddyMm, (∀ i < M.count, s.mem.page (.entry i) = Page.zero) ∧
    buddyPageInit M.start s 0 M.count = .ok s₀

/-- The histories from `s₀`. -/
inductive Run (M : PhyMem) (s₀ : BuddyMm) : Client → Prop
  | init : Run M s₀ ⟨s₀, []⟩
  | alloc {c : Client} {s' : BuddyMm} {n addr : Nat} (hc : Run M s₀ c) (hn : 1 ≤ n)
    (hn' : n ≤ 1024) (h : buddyAllocPages M.start c.mm n = .ok (s', addr)) :
    Run M s₀ ⟨s', if addr = 0 then c.live else (addr, n) :: c.live⟩
  | free {c : Client} {s' : BuddyMm} {n addr : Nat} (hc : Run M s₀ c) (hl : (addr, n) ∈ c.live)
    (h : buddyFreePages M.start c.mm addr n = .ok s') : Run M s₀ ⟨s', c.live.erase (addr, n)⟩

/-- The lists, counters and flags of `s` say that the free blocks are those of `fl`. -/
structure Marks (M : PhyMem) (s : BuddyMm) (fl : FreeLists) : Prop where
  ring : ∀ o ≤ maxOrder, LinkRing s.mem.links (.head o) ((fl o).map .entry)
  nr : ∀ o ≤ maxOrder, s.nrFree o = (fl o).length
  flag : ∀ i < M.count, (s.mem.page (.entry i)).isOrder = true ↔ ∃ o ≤ maxOrder, i ∈ fl o
  order : ∀ o ≤ maxOrder, ∀ i ∈ fl o, (s.mem.page (.entry i)).num = o

/-- **Exclusive use of pages**: the free blocks and the live allocations are apart and together
cover the managed pages exactly. -/
structure Exclusive (M : PhyMem) (c : Client) : Prop where
  lists : ∃ fl, Marks M c.mm fl ∧
    ((blocks fl ++ c.live.map M.liveSeg).Pairwise fun s t => Disjoint s.cells t.cells) ∧
    ∀ i, i < M.count ↔ ∃ s ∈ blocks fl ++ c.live.map M.liveSeg, i ∈ s.cells
  addr : ∀ x ∈ c.live, x.1 = M.addr (M.index x.1)

/-- Block `i` is on `free_list(o)`. -/
def OnFreeList (s : BuddyMm) (o i : Nat) : Prop := s.mem.links.OnList (.head o) (.entry i)

/-- **The representation invariant**: every block starts at a multiple of its size, and no two
buddies are both free. -/
structure Canonical (s : BuddyMm) : Prop where
  aligned : ∀ o ≤ maxOrder, ∀ i, OnFreeList s o i → 2 ^ o ∣ i
  coalesced : ∀ o < maxOrder, ∀ i, OnFreeList s o i → ¬ OnFreeList s o (buddy i o)

/-- **Full recovery**: without live allocations the lists are those of `s₀`. -/
def Recovered (s₀ : BuddyMm) (c : Client) : Prop :=
  c.live = [] → ∀ o ≤ maxOrder,
    (∀ i, OnFreeList c.mm o i ↔ OnFreeList s₀ o i) ∧ c.mm.nrFree o = s₀.nrFree o

/-- **Page accounting**: the counter has the pages of the free lists, and those are all but the live
ones. -/
structure Accounts (M : PhyMem) (c : Client) : Prop where
  lists : (buddyFreePagesCount c.mm : Int) =
    ((List.range (maxOrder + 1)).map fun o => c.mm.nrFree o * 2 ^ o).sum
  live : buddyFreePagesCount c.mm + (c.live.map Prod.snd).sum = M.count

variable {M : PhyMem} {s s₀ : BuddyMm} {c : Client} {p : Pool}

/-- The manager's memory before `buddy_page_init`: zeroed. -/
def zeroMm : BuddyMm := ⟨⟨⟨fun x => x, fun x => x⟩, fun _ => Page.zero⟩, fun _ => 0, 0, 0, 0, 0, 0⟩

theorem exists_initial (M : PhyMem) : ∃ s₀, Initial M s₀ := by
  obtain ⟨s₀, h, -⟩ := buddyPageInit_ending (M := M) (s := zeroMm) fun _ _ => rfl
  exact ⟨s₀, zeroMm, fun _ _ => rfl, h⟩

theorem Initial.ending (h : Initial M s₀) : M.count + 623 ≤ s₀.phyPageNowCount ∧ Ending M s₀ := by
  obtain ⟨s, hzero, h⟩ := h
  obtain ⟨s', h1, h2, h3⟩ := buddyPageInit_ending hzero
  rw [h1] at h
  cases h
  exact ⟨h2, h3⟩

/-! ## Exclusive use of pages -/

/-- The live allocations and the free blocks share out the managed pages. -/
structure Shares (M : PhyMem) (c : Client) (p : Pool) : Prop where
  holds : Holds M c.mm p
  exact : Exact M.count (blocks p.fl ++ c.live.map M.liveSeg)
  live : ∀ x ∈ c.live, x.1 = M.addr (M.index x.1) ∧ 0 < x.2 ∧ x.2 ≤ 2 ^ maxOrder

theorem liveSeg_addr (M : PhyMem) (i n : Nat) : M.liveSeg (M.addr i, n) = (i, n) := by
  rw [PhyMem.liveSeg, M.index_addr]

/-- An allocation returns, and the pages stay shared out. -/
theorem shares_alloc {n : Nat} (h : Shares M c p) (hn : 1 ≤ n) (hn' : n ≤ 1024) :
    ∃ s' addr, buddyAllocPages M.start c.mm n = .ok (s', addr) ∧
      ∃ p', Shares M ⟨s', if addr = 0 then c.live else (addr, n) :: c.live⟩ p' := by
  obtain ⟨s', h1, h2⟩ := alloc_holds h.holds h.exact hn'
  have he := Pool.alloc_exact h.exact hn'
  refine ⟨s', _, h1, (p.alloc M.count n).1, ?_⟩
  cases ha : (p.alloc M.count n).2 with
  | none =>
    rw [ha] at he
    exact ⟨h2, he, h.live⟩
  | some i =>
    have hlive : (if allocAddr M (some i) = 0 then c.live else (allocAddr M (some i), n) :: c.live) =
        (M.addr i, n) :: c.live := if_neg (M.addr_ne_zero i)
    rw [ha] at he
    rw [hlive]
    refine ⟨h2, ?_, fun x hx => ?_⟩
    · rw [List.map_cons, liveSeg_addr]
      exact he
    · rcases List.mem_cons.mp hx with rfl | hx
      · exact ⟨by rw [M.index_addr], hn, hn'⟩
      · exact h.live x hx

/-- Freeing a live allocation returns, and the pages stay shared out. -/
theorem shares_free {x : Nat × Nat} (h : Shares M c p) (hx : x ∈ c.live) :
    ∃ s' p', buddyFreePages M.start c.mm x.1 x.2 = .ok s' ∧ Shares M ⟨s', c.live.erase x⟩ p' := by
  obtain ⟨x1, x2, x3⟩ := h.live x hx
  have hlt : x.2 < 2 ^ (maxOrder + 1) :=
    x3.trans_lt (Nat.pow_lt_pow_right (by decide) (Nat.lt_succ_self _))
  have hperm : (blocks p.fl ++ c.live.map M.liveSeg).Perm
      (blocks p.fl ++ (M.index x.1, x.2) :: (c.live.erase x).map M.liveSeg) :=
    List.Perm.append_left _ ((List.perm_cons_erase hx).map M.liveSeg)
  have he := h.exact.of_perm hperm
  obtain ⟨s', f1, f2⟩ := free_holds h.holds he x2 hlt
  rw [← x1] at f1
  exact ⟨s', _, f1, f2, Pool.free_exact he hlt, fun y hy => h.live y (List.mem_of_mem_erase hy)⟩

theorem shares_exclusive (h : Shares M c p) : Exclusive M c := by
  have hr := h.holds.rep
  refine ⟨⟨p.fl, ⟨hr.ring, hr.nr, fun i hi => ⟨hr.flag i hi, ?_⟩, fun o ho i hi =>
    (hr.head o ho i hi).2⟩, h.exact.disjoint, h.exact.mem_iff⟩, fun x hx => (h.live x hx).1⟩
  rintro ⟨o, ho, hi⟩
  exact (hr.head o ho i hi).1

theorem run_shares (h₀ : Initial M s₀) (hM : 1400 ≤ M.count) (hc : Run M s₀ c) :
    ∃ p, Shares M c p := by
  induction hc with
  | init =>
    cases h₀.ending.2 with
    | @served p _ h he _ => exact ⟨p, h, by simpa using he, by simp⟩
    | failed hlt => omega
    | unserved hlt => omega
  | @alloc c s' n addr _ hn hn' h ih =>
    obtain ⟨p, hp⟩ := ih
    obtain ⟨t, a, hk, ht⟩ := shares_alloc hp hn hn'
    rw [hk] at h
    cases h
    exact ht
  | @free c s' n addr _ hl h ih =>
    obtain ⟨p, hp⟩ := ih
    obtain ⟨t, p', hk, ht⟩ := shares_free hp hl
    rw [hk] at h
    cases h
    exact ⟨p', ht⟩

/-- From 1400 pages on every call of a history returns. -/
theorem run_returns (h₀ : Initial M s₀) (hM : 1400 ≤ M.count) (hc : Run M s₀ c) :
    (∀ n, 1 ≤ n → n ≤ 1024 → ∃ r, buddyAllocPages M.start c.mm n = .ok r) ∧
      ∀ x ∈ c.live, ∃ s', buddyFreePages M.start c.mm x.1 x.2 = .ok s' := by
  obtain ⟨p, h⟩ := run_shares h₀ hM hc
  refine ⟨fun n hn hn' => ?_, fun x hx => ?_⟩
  · obtain ⟨s', addr, h1, -⟩ := shares_alloc h hn hn'
    exact ⟨(s', addr), h1⟩
  · obtain ⟨s', -, h1, -⟩ := shares_free h hx
    exact ⟨s', h1⟩

/-- The first block of a list is on it. -/
theorem onFreeList_of_firstOf {o i : Nat} (h : firstOf s o = .entry i) : OnFreeList s o i := by
  have hnext : s.mem.links.next (.head o) = .entry i := h
  have hne : s.mem.links.next (.head o) ≠ .head o := by simp [hnext]
  have hfirst := Links.OnList.first hne
  rwa [hnext] at hfirst

theorem mem_of_onFreeList {o i : Nat} {xs : List Nat}
    (hr : LinkRing s.mem.links (.head o) (xs.map .entry)) (h : OnFreeList s o i) : i ∈ xs := by
  obtain ⟨j, hj, e⟩ := List.mem_map.mp (hr.onList_iff.mp h)
  cases e
  exact hj

/-- A block beyond the managed pages is no free block. -/
theorem not_exclusive_547 {s' : BuddyMm} (h : Manages M s)
    (hf : buddyFreePages M.start s 0 547 = .ok s') : ¬ Exclusive M ⟨s', []⟩ := by
  intro hex
  obtain ⟨fl, hmarks, -, hcover⟩ := hex.lists
  obtain ⟨hb, -, -⟩ := stray_bounds M
  have h9 : stray M + 35 ∈ fl 9 :=
    mem_of_onFreeList (hmarks.ring 9 (by decide)) (onFreeList_of_firstOf (firstOf_547 h hf).2.1)
  have := (hcover (stray M + 35)).mpr ⟨(stray M + 35, 2 ^ 9),
    List.mem_append_left _ (block_mem (by decide) h9), block_first_mem _ 9⟩
  omega

theorem not_exclusive_initial (h₀ : Initial M s₀) (hM : M.count < 1400) :
    ¬ Exclusive M ⟨s₀, []⟩ := by
  cases h₀.ending.2 with
  | served hge => omega
  | failed _ h _ _ hf => exact not_exclusive_547 h.manages hf
  | unserved _ h h₁ h₂ => exact not_exclusive_547 (firstOf_129 h h₁).1 h₂

/-- **Every history keeps the pages apart exactly when there are 1400 pages or more.** -/
theorem exclusive_iff (M : PhyMem) :
    (∀ s₀ c, Initial M s₀ → Run M s₀ c → Exclusive M c) ↔ 1400 ≤ M.count := by
  constructor
  · intro h
    by_contra hlt
    obtain ⟨s₀, h₀⟩ := exists_initial M
    exact not_exclusive_initial h₀ (by omega) (h s₀ ⟨s₀, []⟩ h₀ .init)
  · intro hM s₀ c h₀ hc
    obtain ⟨p, h⟩ := run_shares h₀ hM hc
    exact shares_exclusive h

/-- 1399 managed pages from 2 MB on. -/
def phyMem1399 : PhyMem :=
  ⟨0x200000, 1399, PhyMem.aligned_2M, PhyMem.kernel_2M, by decide, by decide⟩

/-- 1400 managed pages from 2 MB on. -/
def phyMem1400 : PhyMem :=
  ⟨0x200000, 1400, PhyMem.aligned_2M, PhyMem.kernel_2M, by decide, by decide⟩

/-- With 1399 pages the last request of the self-test is not served. -/
theorem not_exclusive_1399 :
    ¬ ∀ s₀ c, Initial phyMem1399 s₀ → Run phyMem1399 s₀ c → Exclusive phyMem1399 c := by
  intro h
  obtain ⟨s₀, h₀⟩ := exists_initial phyMem1399
  exact not_exclusive_initial h₀ (by decide) (h s₀ ⟨s₀, []⟩ h₀ .init)

/-! ## Alignment -/

/-- A misplaced block on the lists. -/
theorem not_canonical_misplaced {fl : FreeLists} (h : Rep M s fl) {a : Nat} (ha : 32 ∣ a)
    (hm : a + 2 ∈ fl 4) : ¬ Canonical s := by
  intro hc
  have hon : OnFreeList s 4 (a + 2) :=
    (h.ring 4 (by decide)).onList_iff.mpr (List.mem_map_of_mem hm)
  have := hc.aligned 4 (by decide) _ hon
  omega

/-- **The lists are not aligned right after `buddy_page_init`.** -/
theorem not_canonical_initial (h₀ : Initial M s₀) : ¬ Canonical s₀ := by
  cases h₀.ending.2 with
  | served _ h _ hm =>
    obtain ⟨a, ha, hs⟩ := hm
    exact not_canonical_misplaced h.rep ha hs.mem
  | failed _ h he hm hf =>
    obtain ⟨a, ha, hs⟩ := hm
    obtain ⟨fl', h1, h2⟩ := rep_547 h.rep (fun q => (he q).le) hf
    exact not_canonical_misplaced h1 ha (h2 4 _ hs.mem)
  | unserved _ h h₁ h₂ =>
    -- the pieces of 129 and of 547 pages cannot both be aligned
    intro hc
    obtain ⟨m1, e1⟩ := firstOf_129 h h₁
    obtain ⟨e5, -, e7⟩ := firstOf_547 m1 h₂
    have h5 := hc.aligned 5 (by decide) _ (onFreeList_of_firstOf e5)
    have h7 := hc.aligned 7 (by decide) _ (onFreeList_of_firstOf (e7.trans e1))
    omega

/-- **No history keeps the representation invariant**: it fails in the first state of each. -/
theorem canonical_never (M : PhyMem) :
    (∃ s₀, Initial M s₀) ∧ ∀ s₀, Initial M s₀ →
      ¬ ∀ c, Run M s₀ c → Canonical c.mm ∧ Recovered s₀ c :=
  ⟨exists_initial M, fun _ h₀ h => not_canonical_initial h₀ (h _ .init).1⟩

/-- 1400 pages, every request of the self-test served. -/
theorem not_canonical_1400 :
    ¬ ∀ s₀ c, Initial phyMem1400 s₀ → Run phyMem1400 s₀ c → Canonical c.mm ∧ Recovered s₀ c := by
  intro h
  obtain ⟨s₀, h₀⟩ := exists_initial phyMem1400
  exact not_canonical_initial h₀ (h s₀ _ h₀ .init).1

/-! ## The page count -/

/-- **The counter is too high right after `buddy_page_init`.** -/
theorem not_accounts_initial (h₀ : Initial M s₀) : ¬ Accounts M ⟨s₀, []⟩ := by
  intro h
  have h1 : s₀.phyPageNowCount + 0 = M.count := h.live
  have := h₀.ending.1
  omega

/-- **No history keeps the page count**: it is wrong in the first state of each. -/
theorem accounts_never (M : PhyMem) :
    (∃ s₀, Initial M s₀) ∧ ∀ s₀, Initial M s₀ → ¬ ∀ c, Run M s₀ c → Accounts M c :=
  ⟨exists_initial M, fun _ h₀ h => not_accounts_initial h₀ (h _ .init)⟩

/-- 1400 pages, every request of the self-test served. -/
theorem not_accounts_1400 :
    ¬ ∀ s₀ c, Initial phyMem1400 s₀ → Run phyMem1400 s₀ c → Accounts phyMem1400 c := by
  intro h
  obtain ⟨s₀, h₀⟩ := exists_initial phyMem1400
  exact not_accounts_initial h₀ (h s₀ _ h₀ .init)

end Hurlex.Buddy
