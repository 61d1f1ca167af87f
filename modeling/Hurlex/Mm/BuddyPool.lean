import Hurlex.Mm.BuddyRep
import Hurlex.Mm.BuddyCounts

/-!
# The buddy manager as a pool of blocks

`Pool`: the free lists and the page counter. `Holds M s p` ties the manager's memory to a pool;
`alloc_holds` and `free_holds` say that the code does to its memory what `Pool.alloc` and
`Pool.free` do to the pool, `alloc_exact` and `free_exact` that the free blocks and the pages in use
go on sharing out the memory.
-/

namespace Hurlex.Buddy

open Lib

/-- The free lists and the page counter. -/
structure Pool where
  fl : FreeLists
  now : Nat

namespace Pool

/-- `buddy_alloc_pages`. -/
def alloc (N : Nat) (p : Pool) (n : Nat) : Pool × Option Nat :=
  if n = 0 ∨ n > p.now then (p, none)
  else
    match allocPages N p.fl n with
    | none => (p, none)
    | some r => (⟨r.1, countAfter p.now n⟩, some r.2)

/-- `buddy_free_pages`. -/
def free (N : Nat) (p : Pool) (i n : Nat) : Pool :=
  ⟨freePages N 32 p.fl i n 0, u32 (p.now + n)⟩

/-- Allocations one after the other. -/
def allocEach (N : Nat) : List Nat → Pool → Pool × List (Option Nat)
  | [], p => (p, [])
  | n :: sizes, p =>
    let r := allocEach N sizes (p.alloc N n).1
    (r.1, (p.alloc N n).2 :: r.2)

/-- Releases one after the other. -/
def freeEach (N : Nat) : List Seg → Pool → Pool
  | [], p => p
  | x :: l, p => freeEach N l (p.free N x.1 x.2)

/-- The pages served of a list of requests. -/
def served : List (Option Nat) → List Nat → List Seg
  | some i :: rs, n :: sizes => (i, n) :: served rs sizes
  | none :: rs, _ :: sizes => served rs sizes
  | _, _ => []

variable {N : Nat} {p : Pool} {i n : Nat} {live : List Seg}

theorem alloc_short (h : n > p.now) : p.alloc N n = (p, none) := if_pos (Or.inr h)

theorem alloc_none (h : allocPages N p.fl n = none) : p.alloc N n = (p, none) := by
  unfold alloc
  rw [h]
  split <;> rfl

theorem alloc_served {fl' : FreeLists} (hn : 0 < n) (hnow : n ≤ p.now)
    (h : allocPages N p.fl n = some (fl', i)) :
    p.alloc N n = (⟨fl', countAfter p.now n⟩, some i) := by
  unfold alloc
  rw [if_neg (by omega), h]

/-- An allocation is not served, and changes nothing, or takes a block. -/
theorem alloc_cases (N : Nat) (p : Pool) (n : Nat) :
    p.alloc N n = (p, none) ∨ ∃ fl' i, 0 < n ∧ n ≤ p.now ∧ allocPages N p.fl n = some (fl', i) ∧
      p.alloc N n = (⟨fl', countAfter p.now n⟩, some i) := by
  by_cases hz : n = 0 ∨ n > p.now
  · exact .inl (if_pos hz)
  · cases h : allocPages N p.fl n with
    | none => exact .inl (alloc_none h)
    | some r => exact .inr ⟨r.1, r.2, by omega, by omega, rfl, alloc_served (by omega) (by omega) h⟩

/-- **An allocation takes its pages off the free blocks.** -/
theorem alloc_exact (he : Exact N (blocks p.fl ++ live)) (hn : n ≤ 2 ^ maxOrder) :
    Exact N (blocks (p.alloc N n).1.fl ++ (served [(p.alloc N n).2] [n] ++ live)) := by
  rcases alloc_cases N p n with h | ⟨fl', i, -, -, ha, h⟩
  · rw [h]
    exact he
  · rw [h]
    intro q
    have hc := allocPages_cover hn ha q
    have hq := he q
    simp only [served, List.cons_append, List.nil_append, cover_append, cover_cons] at hc hq ⊢
    omega

/-- **A release gives its pages back.** -/
theorem free_exact (he : Exact N (blocks p.fl ++ (i, n) :: live)) (hn : n < 2 ^ (maxOrder + 1)) :
    Exact N (blocks (p.free N i n).fl ++ live) := by
  intro q
  have hc := freePages_cover (N := N) q 32 p.fl i n 0 (by simp) hn
    (hn.trans (Nat.pow_lt_pow_right (by decide) (by decide)))
  have hq := he q
  simp only [free, cover_append, cover_cons] at hc hq ⊢
  omega

theorem free_fits (he : Exact N (blocks p.fl ++ (i, n) :: live)) :
    Fits N ((i, n) :: blocks p.fl) := by
  intro q
  have := he q
  simp only [cover_append, cover_cons] at this ⊢
  omega

end Pool

/-- No pages in use. -/
theorem exact_nil {N : Nat} {fl : FreeLists} (he : Exact N (blocks fl)) :
    Exact N (blocks fl ++ []) := by
  rwa [List.append_nil]

/-- The manager's memory `s` holds the pool `p`. -/
structure Holds (M : PhyMem) (s : BuddyMm) (p : Pool) : Prop where
  rep : Rep M s p.fl
  now : s.phyPageNowCount = p.now

/-- What `buddy_alloc_pages` returns. -/
def allocAddr (M : PhyMem) : Option Nat → Nat
  | none => 0
  | some i => M.addr i

variable {M : PhyMem} {s : BuddyMm} {p : Pool} {live : List Seg} {i n : Nat}

/-- **`buddy_alloc_pages` returns, and does to its memory what `Pool.alloc` does to the pool.** -/
theorem alloc_holds (h : Holds M s p) (he : Exact M.count (blocks p.fl ++ live))
    (hn : n ≤ 2 ^ maxOrder) :
    ∃ s', buddyAllocPages M.start s n = .ok (s', allocAddr M (p.alloc M.count n).2) ∧
      Holds M s' (p.alloc M.count n).1 := by
  by_cases hz : n = 0 ∨ n > p.now
  · refine ⟨s, ?_, ?_⟩
    · rw [Pool.alloc, if_pos hz, buddyAllocPages, if_pos (by rwa [h.now])]
      rfl
    · rwa [Pool.alloc, if_pos hz]
  · cases ha : allocPages M.count p.fl n with
    | none =>
      rw [Pool.alloc_none ha]
      exact ⟨s, buddyAllocPages_none h.rep hn ha, h⟩
    | some r =>
      rw [Pool.alloc_served (by omega) (by omega) ha]
      obtain ⟨s', h1, h2, h3⟩ := buddyAllocPages_some h.rep he.fits (by omega) hn
        (by rw [h.now]; omega) ha
      exact ⟨s', h1, h2, by rw [h3, h.now]⟩

/-- **`buddy_free_pages` of pages in use returns, and does to its memory what `Pool.free` does to
the pool.** -/
theorem free_holds (h : Holds M s p) (he : Exact M.count (blocks p.fl ++ (i, n) :: live))
    (hn : 0 < n) (hn' : n < 2 ^ (maxOrder + 1)) :
    ∃ s', buddyFreePages M.start s (M.addr i) n = .ok s' ∧ Holds M s' (p.free M.count i n) := by
  obtain ⟨s', h1, h2, h3⟩ := buddyFreePages_rep h.rep hn hn' (Pool.free_fits he)
  exact ⟨s', h1, h2, by rw [h3, h.now]; rfl⟩

/-! ## Several calls -/

theorem allocEach_cons {start addr : Nat} {s' : BuddyMm} {sizes : List Nat}
    {r : BuddyMm × List (Nat × Nat)} (h : buddyAllocPages start s n = .ok (s', addr))
    (hr : allocEach start sizes s' = .ok r) :
    allocEach start (n :: sizes) s = .ok (r.1, (addr, n) :: r.2) := by
  simp only [allocEach, h, hr, bind, Except.bind]
  rfl

theorem freeEach_cons {start : Nat} {x : Nat × Nat} {l : List (Nat × Nat)} {s' : BuddyMm}
    (h : buddyFreePages start s x.1 x.2 = .ok s') :
    freeEach start (x :: l) s = freeEach start l s' := by
  simp only [freeEach, h, bind, Except.bind]

theorem allocEach_holds : ∀ (sizes : List Nat) {s : BuddyMm} {p : Pool} {live : List Seg},
    Holds M s p → Exact M.count (blocks p.fl ++ live) → (∀ n ∈ sizes, n ≤ 2 ^ maxOrder) →
    ∃ s' live', allocEach M.start sizes s =
        .ok (s', ((p.allocEach M.count sizes).2.map (allocAddr M)).zip sizes) ∧
      Holds M s' (p.allocEach M.count sizes).1 ∧
      Exact M.count (blocks (p.allocEach M.count sizes).1.fl ++ live') ∧
      live'.Perm (Pool.served (p.allocEach M.count sizes).2 sizes ++ live)
  | [], s, _, live, h, he, _ => ⟨s, live, rfl, h, he, List.Perm.refl _⟩
  | n :: sizes, s, p, live, h, he, hn => by
    have hn0 := hn n List.mem_cons_self
    obtain ⟨s₁, a1, a2⟩ := alloc_holds h he hn0
    obtain ⟨s₂, live', b1, b2, b3, b4⟩ := allocEach_holds sizes a2 (Pool.alloc_exact he hn0)
      fun m hm => hn m (List.mem_cons_of_mem _ hm)
    refine ⟨s₂, live', allocEach_cons a1 b1, b2, b3, b4.trans ?_⟩
    simp only [Pool.allocEach]
    cases (p.alloc M.count n).2 with
    | none => exact List.Perm.refl _
    | some i => exact List.perm_middle

theorem freeEach_holds : ∀ (l : List Seg) {s : BuddyMm} {p : Pool},
    Holds M s p → Exact M.count (blocks p.fl ++ (l ++ live)) →
    (∀ x ∈ l, 0 < x.2 ∧ x.2 < 2 ^ (maxOrder + 1)) →
    ∃ s', freeEach M.start (l.map fun x => (M.addr x.1, x.2)) s = .ok s' ∧
      Holds M s' (p.freeEach M.count l) ∧
      Exact M.count (blocks (p.freeEach M.count l).fl ++ live)
  | [], s, _, h, he, _ => ⟨s, rfl, h, he⟩
  | x :: l, s, p, h, he, hn => by
    obtain ⟨hn1, hn2⟩ := hn x List.mem_cons_self
    obtain ⟨s₁, a1, a2⟩ := free_holds h he hn1 hn2
    obtain ⟨s₂, b1, b2, b3⟩ := freeEach_holds l a2 (Pool.free_exact he hn2)
      fun y hy => hn y (List.mem_cons_of_mem _ hy)
    refine ⟨s₂, ?_, b2, b3⟩
    rw [List.map_cons, freeEach_cons (x := (M.addr x.1, x.2)) a1, b1]

end Hurlex.Buddy
