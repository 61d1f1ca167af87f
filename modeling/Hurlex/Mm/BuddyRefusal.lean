import Hurlex.Mm.BuddyStates

/-!
# Requests the buddy manager cannot serve

A request for which there is no block should get `0`, as `ff_alloc_pages` and the callers of
`alloc_pages` have it. `Reach M` are the histories from `buddy_page_init` in which requests are for
any number of pages.

**`refuses_iff`**: in every state of such a history, `buddy_alloc_pages` refuses a request it has no
block for if the request is for 1024 pages at most or for more than the counter says are free. Any
other one ends in the panic of `get_order` (`buddyAllocPages_panics`), and the counter is no guard
against it: it counts single pages, and too many of them (`accounts_never`).
-/

namespace Hurlex.Buddy

open Lib

/-- The histories from `buddy_page_init`, whatever is asked for. -/
inductive Reach (M : PhyMem) : Client → Prop
  | init {s₀ : BuddyMm} (h₀ : Initial M s₀) : Reach M ⟨s₀, []⟩
  | alloc {c : Client} {s' : BuddyMm} {n addr : Nat} (hc : Reach M c) (hn : n < 2 ^ 32)
    (h : buddyAllocPages M.start c.mm n = .ok (s', addr)) :
    Reach M ⟨s', if addr = 0 then c.live else (addr, n) :: c.live⟩
  | free {c : Client} {s' : BuddyMm} {n addr : Nat} (hc : Reach M c) (hl : (addr, n) ∈ c.live)
    (h : buddyFreePages M.start c.mm addr n = .ok s') : Reach M ⟨s', c.live.erase (addr, n)⟩

/-- No list has a block of `n` pages or more. -/
def NoBlock (s : BuddyMm) (n : Nat) : Prop :=
  ∀ o ≤ maxOrder, n ≤ 2 ^ o → listEmpty s.mem.links (.head o) = true

/-- `buddy_alloc_pages` returns `0` and leaves its memory as it was. -/
def Refuses (M : PhyMem) (s : BuddyMm) (n : Nat) : Prop :=
  buddyAllocPages M.start s n = .ok (s, 0)

variable {M : PhyMem} {s : BuddyMm} {c : Client} {n : Nat}

/-! ## More than 1024 pages -/

/-- `get_order` has no order for them. -/
theorem getOrderLoop_panics (hn : 2 ^ maxOrder < n) : ∀ (k o : Nat), o + k = maxOrder + 1 →
    getOrderLoop n k o (2 ^ o) = .error (.panic "getorder failed.")
  | 0, _, _ => rfl
  | k + 1, o, hk => by
    have hle : 2 ^ o ≤ 2 ^ maxOrder := size_le (by omega)
    have hlt : 2 ^ (o + 1) < 2 ^ 32 :=
      Nat.pow_lt_pow_right (by decide) (by have : maxOrder = 10 := rfl; omega)
    rw [getOrderLoop, if_neg (by omega), ← pow_succ, u32_of_lt hlt]
    exact getOrderLoop_panics hn k (o + 1) (by omega)

theorem getOrder_panics (hn : 2 ^ maxOrder < n) :
    getOrder n = .error (.panic "getorder failed.") :=
  getOrderLoop_panics hn (maxOrder + 1) 0 (Nat.zero_add _)

/-- **A request for more than 1024 pages that the counter lets through stops the kernel.** -/
theorem buddyAllocPages_panics {start : Nat} (hn : 2 ^ maxOrder < n)
    (hnow : n ≤ s.phyPageNowCount) :
    buddyAllocPages start s n = .error (.panic "getorder failed.") := by
  have hpos := Nat.two_pow_pos maxOrder
  rw [buddyAllocPages, if_neg (by omega), getOrder_panics hn]
  rfl

/-- A request for more than 1024 pages that returns has changed nothing. -/
theorem buddyAllocPages_large {start addr : Nat} {s' : BuddyMm} (hn : n = 0 ∨ 2 ^ maxOrder < n)
    (h : buddyAllocPages start s n = .ok (s', addr)) : s' = s ∧ addr = 0 := by
  by_cases hz : n = 0 ∨ n > s.phyPageNowCount
  · rw [buddyAllocPages, if_pos hz] at h
    cases h
    exact ⟨rfl, rfl⟩
  · rw [buddyAllocPages_panics (by omega) (by omega)] at h
    cases h

/-- So requests of any size reach no other states than those for up to 1024 pages. -/
theorem reach_iff : Reach M c ↔ ∃ s₀, Initial M s₀ ∧ Run M s₀ c := by
  constructor
  · intro h
    induction h with
    | init h₀ => exact ⟨_, h₀, .init⟩
    | @alloc c s' n addr _ _ h ih =>
      obtain ⟨s₀, h₀, hc⟩ := ih
      by_cases hn : n = 0 ∨ 2 ^ maxOrder < n
      · obtain ⟨rfl, rfl⟩ := buddyAllocPages_large hn h
        exact ⟨s₀, h₀, hc⟩
      · have hmax : 2 ^ maxOrder = 1024 := rfl
        exact ⟨s₀, h₀, hc.alloc (by omega) (by omega) h⟩
    | free _ hl h ih =>
      obtain ⟨s₀, h₀, hc⟩ := ih
      exact ⟨s₀, h₀, hc.free hl h⟩
  · rintro ⟨s₀, h₀, hc⟩
    induction hc with
    | init => exact .init h₀
    | alloc _ _ hn' h ih => exact ih.alloc (hn'.trans_lt (by decide)) h
    | free _ hl h ih => exact ih.free hl h

/-! ## Requests without a block -/

/-- Said of the lists the memory holds. -/
theorem Rep.noBlock_iff {fl : FreeLists} (h : Rep M s fl) :
    NoBlock s n ↔ ∀ t ∈ blocks fl, t.2 < n := by
  have hempty : ∀ o ≤ maxOrder, listEmpty s.mem.links (.head o) = true ↔ fl o = [] := fun o ho => by
    rw [listEmpty_iff (h.ring o ho), List.map_eq_nil_iff]
  constructor
  · intro hno t ht
    obtain ⟨o, ho, i, hi, rfl⟩ := mem_blocks.1 ht
    by_contra hle
    rw [(hempty o ho).1 (hno o ho (Nat.le_of_not_lt hle))] at hi
    exact absurd hi List.not_mem_nil
  · intro hlt o ho hle
    refine (hempty o ho).2 (List.eq_nil_iff_forall_not_mem.2 fun i hi => ?_)
    exact absurd hle (Nat.not_le_of_lt (hlt (i, 2 ^ o) (block_mem ho hi)))

/-- The search comes to the end of the lists. -/
theorem NoBlock.findOrder (h : NoBlock s n) (hn : n ≤ 2 ^ maxOrder) :
    findOrder s (orderOf n) = none := by
  refine List.find?_eq_none.2 fun c hc => ?_
  obtain ⟨h1, h2⟩ := List.mem_range'_1.1 hc
  have hle : n ≤ 2 ^ c := (le_orderOf hn).trans (Nat.pow_le_pow_right (by decide) h1)
  rw [h c (by omega) hle]
  decide

theorem NoBlock.refuses (h : NoBlock s n) (hn : n ≤ 2 ^ maxOrder) : Refuses M s n := by
  by_cases hz : n = 0 ∨ n > s.phyPageNowCount
  · rw [Refuses, buddyAllocPages, if_pos hz]
  · have hsub : buddyAllocPagesSub s (orderOf n) = .ok (s, none) := by
      rw [buddyAllocPagesSub, decide_eq_true (orderOf_le n), h.findOrder hn]
      rfl
    rw [Refuses, buddyAllocPages, if_neg hz, getOrder_eq hn]
    simp only [bind, Except.bind, hsub]

/-- **A request without a block is refused if it is for 1024 pages at most, or for more than the
counter has.** -/
theorem refuses_iff (M : PhyMem) : ∀ c, Reach M c → ∀ n < 2 ^ 32, NoBlock c.mm n →
    (Refuses M c.mm n ↔ n ≤ 1024 ∨ c.mm.phyPageNowCount < n) := by
  intro c _ n _ hno
  constructor
  · intro h
    by_contra hlarge
    obtain ⟨h1, h2⟩ := not_or.1 hlarge
    have hpanic : buddyAllocPages M.start c.mm n = .error (.panic "getorder failed.") :=
      buddyAllocPages_panics (Nat.lt_of_not_le h1) (Nat.le_of_not_lt h2)
    rw [Refuses, hpanic] at h
    cases h
  · rintro (hle | hlt)
    · exact hno.refuses hle
    · exact buddyAllocPages_short c.mm hlt

/-- No block has 1025 pages. -/
theorem noBlock_1025 (s : BuddyMm) : NoBlock s 1025 := by
  intro o ho hle
  have := size_le ho
  have : 2 ^ maxOrder = 1024 := rfl
  omega

/-- 1025 pages are not refused right after `buddy_page_init` of 1400. -/
theorem refuses_iff_1025 : ∃ s₀, Reach phyMem1400 ⟨s₀, []⟩ ∧
    (Refuses phyMem1400 s₀ 1025 ↔ 1025 ≤ 1024 ∨ s₀.phyPageNowCount < 1025) := by
  obtain ⟨s₀, h₀⟩ := exists_initial phyMem1400
  exact ⟨s₀, .init h₀, refuses_iff phyMem1400 ⟨s₀, []⟩ (.init h₀) 1025 (by decide) (noBlock_1025 s₀)⟩

theorem not_refuses_1025 : ¬ ∀ (M : PhyMem) (c : Client), Reach M c → ∀ n < 2 ^ 32,
    NoBlock c.mm n → Refuses M c.mm n := by
  intro h
  obtain ⟨s₀, h₀⟩ := exists_initial phyMem1400
  have hnow : 1400 + 623 ≤ s₀.phyPageNowCount := h₀.ending.1
  have href := h phyMem1400 ⟨s₀, []⟩ (.init h₀) 1025 (by decide) (noBlock_1025 s₀)
  rw [Refuses, buddyAllocPages_panics (by decide) (by show 1025 ≤ s₀.phyPageNowCount; omega)] at href
  cases href

end Hurlex.Buddy
