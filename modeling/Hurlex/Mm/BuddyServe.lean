import Hurlex.Mm.BuddyPool
import Hurlex.Mm.BuddyStuck
import Mathlib.Tactic.IntervalCases

/-!
# Several calls of the buddy manager

What holds of sequences of calls: releases of any pages return (`freeEach_total`), the counter
gains by what is allocated and freed again (`Pool.allocEach_now`), and requests are all served when
there are blocks enough of each order (`Pool.allocEach_served`).
-/

namespace Hurlex.Buddy

open Lib

/-! ## Releases of any pages

`buddy_free_pages` does not look at the address. -/

/-- The blocks a run of `n` pages is given back in. -/
def pieces : Nat → Nat → Nat → Nat → List (Nat × Nat)
  | 0, _, _, _ => []
  | k + 1, b, n, o =>
    if n ≥ 2 ^ o then
      if n &&& 2 ^ o ≠ 0 then (b, o) :: pieces k (b + 2 ^ o) (n - 2 ^ o) (o + 1)
      else pieces k b n (o + 1)
    else []

/-- Blocks given back one after the other. -/
def freeBlocks (s : BuddyMm) (bs : List (Nat × Nat)) : BuddyMm :=
  bs.foldl (fun s x => buddyFreePagesSub s x.1 x.2) s

theorem freeLoop_pieces : ∀ (k : Nat) (s : BuddyMm) (b n o : Nat), n < 2 ^ (o + k) →
    freeLoop (k + 1) s b n o (2 ^ o) = .ok (freeBlocks s (pieces (k + 1) b n o))
  | k, s, b, n, o, hn => by
    unfold freeLoop pieces
    by_cases hle : n ≥ 2 ^ o
    · obtain ⟨k, rfl⟩ : ∃ j, k = j + 1 := by
        have := lt_of_two_pow_le hle hn
        exact ⟨k - 1, by omega⟩
      have hk' : o + 1 + k = o + (k + 1) := by omega
      rw [if_pos hle, if_pos hle, ← pow_succ 2 o]
      by_cases hbit : n &&& 2 ^ o ≠ 0
      · rw [if_pos hbit, if_pos hbit]
        exact freeLoop_pieces k _ _ _ _ ((Nat.sub_le n (2 ^ o)).trans_lt (by rwa [hk']))
      · rw [if_neg hbit, if_neg hbit]
        exact freeLoop_pieces k _ _ _ _ (by rwa [hk'])
    · rw [if_neg hle, if_neg hle]
      rfl

/-- What the release of a block never changes. -/
theorem coalesce_frame : ∀ (k : Nat) (s : BuddyMm) (i o : Nat),
    (coalesce s i o k).1.pagesBase = s.pagesBase ∧
      (coalesce s i o k).1.phyPageCount = s.phyPageCount ∧
      (coalesce s i o k).1.phyPageNowCount = s.phyPageNowCount
  | 0, _, _, _ => ⟨rfl, rfl, rfl⟩
  | k + 1, s, i, o => by
    by_cases h : pageIsBuddy s (idxToPage s (buddy i o)) o = true
    · rw [coalesce_pos h]
      exact coalesce_frame k _ _ _
    · rw [coalesce_neg h]
      exact ⟨rfl, rfl, rfl⟩

theorem freeBlocks_frame : ∀ (bs : List (Nat × Nat)) (s : BuddyMm),
    (freeBlocks s bs).pagesBase = s.pagesBase ∧
      (freeBlocks s bs).phyPageCount = s.phyPageCount ∧
      (freeBlocks s bs).phyPageNowCount = s.phyPageNowCount
  | [], _ => ⟨rfl, rfl, rfl⟩
  | x :: bs, s => by
    obtain ⟨h1, h2, h3⟩ := freeBlocks_frame bs (buddyFreePagesSub s x.1 x.2)
    obtain ⟨g1, g2, g3⟩ := coalesce_frame (maxOrder - x.2) (clearRefs s x.1 (2 ^ x.2))
      (pageToIdx s x.1) x.2
    exact ⟨h1.trans g1, h2.trans g2, h3.trans g3⟩

/-- `buddy_free_pages` gives back the pieces, whatever the address. -/
theorem buddyFreePages_eq {start : Nat} (hs : start ≠ 0) (s : BuddyMm) (addr : Nat) {n : Nat}
    (hn : 0 < n) (hn' : n < 2 ^ 31) :
    buddyFreePages start s addr n =
      .ok (freeBlocks { s with phyPageNowCount := u32 (s.phyPageNowCount + n) }
        (pieces 32 (u32Sub (addr / pageSize * pageSize) start / pageSize) n 0)) := by
  unfold buddyFreePages addrToPage kassert
  rw [if_neg (by omega), decide_eq_true hs]
  exact freeLoop_pieces 31 _ _ n 0 hn'

/-- The manager manages the pages of `M`. -/
structure Manages (M : PhyMem) (s : BuddyMm) : Prop where
  base : s.pagesBase = 0
  count : s.phyPageCount = M.count

variable {M : PhyMem} {s : BuddyMm} {p : Pool} {live : List Seg} {T : Nat} {c : List Nat × Nat}

theorem Holds.manages (h : Holds M s p) : Manages M s := ⟨h.rep.base, h.rep.count⟩

/-- `buddy_free_pages` returns, for any address. -/
theorem buddyFreePages_returns (h : Manages M s) (addr : Nat) {n : Nat} (hn : 0 < n)
    (hn' : n < 2 ^ 31) :
    ∃ s', buddyFreePages M.start s addr n = .ok s' ∧ Manages M s' ∧
      s'.phyPageNowCount = u32 (s.phyPageNowCount + n) := by
  obtain ⟨h1, h2, h3⟩ := freeBlocks_frame
    (pieces 32 (u32Sub (addr / pageSize * pageSize) M.start / pageSize) n 0)
    { s with phyPageNowCount := u32 (s.phyPageNowCount + n) }
  exact ⟨_, buddyFreePages_eq M.pos.ne' s addr hn hn', ⟨h1.trans h.base, h2.trans h.count⟩, h3⟩

theorem freeEach_total : ∀ (l : List (Nat × Nat)) {s : BuddyMm}, Manages M s →
    (∀ x ∈ l, 0 < x.2 ∧ x.2 < 2 ^ 31) → s.phyPageNowCount + (l.map Prod.snd).sum < 2 ^ 32 →
    ∃ s', freeEach M.start l s = .ok s' ∧ Manages M s' ∧
      s'.phyPageNowCount = s.phyPageNowCount + (l.map Prod.snd).sum
  | [], s, h, _, _ => ⟨s, rfl, h, rfl⟩
  | x :: l, s, h, hl, hnow => by
    rw [List.map_cons, List.sum_cons] at hnow ⊢
    obtain ⟨hx1, hx2⟩ := hl x List.mem_cons_self
    obtain ⟨s₁, h1, h2, h3⟩ := buddyFreePages_returns h x.1 hx1 hx2
    rw [u32_of_lt (by omega)] at h3
    obtain ⟨s₂, g1, g2, g3⟩ := freeEach_total l h2 (fun y hy => hl y (List.mem_cons_of_mem _ hy))
      (by omega)
    exact ⟨s₂, (freeEach_cons h1).trans g1, g2, by omega⟩

theorem freeEach_append {start : Nat} {l₂ : List (Nat × Nat)} {s' : BuddyMm} :
    ∀ {l₁ : List (Nat × Nat)} {s : BuddyMm}, freeEach start l₁ s = .ok s' →
      freeEach start (l₁ ++ l₂) s = freeEach start l₂ s'
  | [], s, h => by
    cases h
    rfl
  | x :: l₁, s, h => by
    cases hx : buddyFreePages start s x.1 x.2 with
    | error e =>
      simp only [freeEach, hx, bind, Except.bind] at h
      cases h
    | ok s₁ =>
      rw [freeEach_cons hx] at h
      rw [List.cons_append, freeEach_cons hx, freeEach_append h]

theorem allocEach_append {start : Nat} {l₂ : List Nat} {s' : BuddyMm}
    {r : BuddyMm × List (Nat × Nat)} (hr : allocEach start l₂ s' = .ok r) :
    ∀ {l₁ : List Nat} {s : BuddyMm} {x : List (Nat × Nat)}, allocEach start l₁ s = .ok (s', x) →
      allocEach start (l₁ ++ l₂) s = .ok (r.1, x ++ r.2)
  | [], s, x, h => by
    cases h
    exact hr
  | n :: l₁, s, x, h => by
    cases hx : buddyAllocPages start s n with
    | error e =>
      simp only [allocEach, hx, bind, Except.bind] at h
      cases h
    | ok s₁ =>
      cases hy : allocEach start l₁ s₁.1 with
      | error e =>
        simp only [allocEach, hx, hy, bind, Except.bind] at h
        cases h
      | ok y =>
        rw [allocEach_cons hx hy] at h
        cases h
        exact allocEach_cons hx (allocEach_append hr hy)

/-! ## The page counter -/

/-- The pages the counter gains by an allocation of `n` pages that is freed again: those of the tail
if it was served, `n` if it was not. This is the lesser of the two. -/
def drift (n : Nat) : Nat := min (2 ^ orderOf n - n) n

theorem countAfter_add {now n : Nat} (hn : n ≤ now) (hnow : now + 2 ^ maxOrder < 2 ^ 32) :
    countAfter now n + n = now + (2 ^ orderOf n - n) := by
  have := size_le (orderOf_le n)
  have := Nat.two_pow_pos (orderOf n)
  unfold countAfter
  rw [u32_of_lt (by omega), u32Sub_of_le (by omega) (by omega)]
  omega

/-- The counter after allocations, served or not. -/
theorem Pool.allocEach_now {N : Nat} : ∀ (sizes : List Nat) (p : Pool),
    p.now + sizes.length * 2 ^ maxOrder < 2 ^ 32 →
    p.now + (sizes.map drift).sum ≤ (p.allocEach N sizes).1.now + sizes.sum ∧
      (p.allocEach N sizes).1.now ≤ p.now + sizes.length * 2 ^ maxOrder
  | [], p, _ => ⟨le_rfl, Nat.le_add_right _ _⟩
  | n :: sizes, p, h => by
    rw [List.length_cons, Nat.succ_mul] at h ⊢
    rw [List.map_cons, List.sum_cons, List.sum_cons]
    have hstep : p.now + drift n ≤ (p.alloc N n).1.now + n ∧
        (p.alloc N n).1.now ≤ p.now + 2 ^ maxOrder := by
      have hle : drift n ≤ n := Nat.min_le_right _ _
      rcases alloc_cases N p n with e | ⟨fl', i, -, hn, -, e⟩
      · rw [e]
        exact ⟨Nat.add_le_add_left hle _, Nat.le_add_right _ _⟩
      · rw [e]
        have h1 := countAfter_add hn (by omega)
        have h2 : drift n ≤ 2 ^ orderOf n - n := Nat.min_le_left _ _
        have h3 := size_le (orderOf_le n)
        have h4 := Nat.two_pow_pos maxOrder
        exact ⟨by simp only; omega, by simp only; omega⟩
    obtain ⟨h1, h2⟩ := Pool.allocEach_now (N := N) sizes (p.alloc N n).1 (by omega)
    simp only [Pool.allocEach]
    omega

/-! ## When requests are served -/

section Served

variable {N : Nat}

theorem le_foldl_allocCounts : ∀ (sizes : List Nat) (c : List Nat × Nat),
    c.2 ≤ (sizes.foldl allocCounts c).2
  | [], _ => le_rfl
  | n :: sizes, c => (Nat.le_add_right c.2 _).trans (le_foldl_allocCounts sizes (allocCounts c n))

/-- An allocation that is served: what it leaves, and where its pages lie. -/
theorem Pool.alloc_spec {n i : Nat} (h : Canon p.fl) (hfit : Fits N (blocks p.fl))
    (hc : Counted T p.fl c) (hn : 0 < n ∧ n ≤ 2 ^ maxOrder) (hnow : p.now + 2 ^ maxOrder < 2 ^ 32)
    (ha : (p.alloc N n).2 = some i) :
    Canon (p.alloc N n).1.fl ∧ Fits N (blocks (p.alloc N n).1.fl) ∧
      Counted T (p.alloc N n).1.fl (allocCounts c n) ∧
      (2 ^ orderOf n ∣ i ∧ i + 2 ^ orderOf n ≤ N) ∧
      (p.alloc N n).1.now + n = p.now + (2 ^ orderOf n - n) := by
  rcases alloc_cases N p n with e | ⟨fl', i', -, hle, hp, e⟩
  · rw [e] at ha
    cases ha
  · rw [e] at ha ⊢
    cases ha
    obtain ⟨h1, h2, fl₁, hsub, -⟩ := allocPages_canon h hfit hn.1 hn.2 hp
    have hsub' : Fits N ((i, 2 ^ orderOf n) :: blocks fl₁) := fun q =>
      (allocSub_cover hsub q).le.trans (hfit q)
    have hfit' : Fits N ((i, n) :: blocks fl') := fun q =>
      (allocPages_cover hn.2 hp q).le.trans (hfit q)
    exact ⟨h1, hfit'.tail, allocPages_counted hc h hfit hn.1 hn.2 hp,
      ⟨h2, hsub'.bound List.mem_cons_self (Nat.two_pow_pos _)⟩, countAfter_add hle hnow⟩

/-- Requests that are all served. -/
theorem Pool.allocEach_spec : ∀ (sizes : List Nat) {p : Pool} {c : List Nat × Nat} {is : List Nat},
    Canon p.fl → Fits N (blocks p.fl) → Counted T p.fl c →
    (∀ n ∈ sizes, 0 < n ∧ n ≤ 2 ^ maxOrder) → p.now + sizes.length * 2 ^ maxOrder < 2 ^ 32 →
    (p.allocEach N sizes).2 = is.map some →
    Canon (p.allocEach N sizes).1.fl ∧
      Counted T (p.allocEach N sizes).1.fl (sizes.foldl allocCounts c) ∧
      (∀ x ∈ is.zip sizes, 2 ^ orderOf x.2 ∣ x.1 ∧ x.1 + 2 ^ orderOf x.2 ≤ N) ∧
      (p.allocEach N sizes).1.now + sizes.sum =
        p.now + (sizes.map fun n => 2 ^ orderOf n - n).sum
  | [], _, _, _, h, _, hc, _, _, _ => ⟨h, hc, by simp, rfl⟩
  | n :: sizes, p, c, is, h, hfit, hc, hn, hnow, hs => by
    simp only [Pool.allocEach] at hs
    obtain ⟨i, is, rfl⟩ : ∃ i is', is = i :: is' := List.exists_cons_of_ne_nil fun e => by
      rw [e] at hs
      cases hs
    rw [List.map_cons] at hs
    obtain ⟨hi, hs⟩ := List.cons.inj hs
    rw [List.length_cons, Nat.succ_mul] at hnow
    have hn0 := hn n List.mem_cons_self
    have hord := size_le (orderOf_le n)
    obtain ⟨s1, s2, s3, s4, s5⟩ := Pool.alloc_spec h hfit hc hn0 (by omega) hi
    obtain ⟨e1, e2, e3, e4⟩ := Pool.allocEach_spec sizes s1 s2 s3
      (fun m hm => hn m (List.mem_cons_of_mem _ hm)) (by omega) hs
    refine ⟨e1, e2, fun x hx => ?_, ?_⟩
    · rw [List.zip_cons_cons] at hx
      rcases List.mem_cons.mp hx with rfl | hx
      · exact s4
      · exact e3 x hx
    · simp only [Pool.allocEach, List.sum_cons, List.map_cons]
      omega

/-- **Requests that break up no more blocks of the highest order than there are, and ask for no more
pages than the counter has, are all served.** -/
theorem Pool.allocEach_served : ∀ (sizes : List Nat) {p : Pool} {c : List Nat × Nat}, Canon p.fl →
    Fits N (blocks p.fl) → Counted T p.fl c → (∀ n ∈ sizes, 0 < n ∧ n ≤ 2 ^ maxOrder) →
    (sizes.foldl allocCounts c).2 ≤ T → sizes.sum ≤ p.now →
    p.now + sizes.length * 2 ^ maxOrder < 2 ^ 32 →
    ∃ is : List Nat, (p.allocEach N sizes).2 = is.map some
  | [], _, _, _, _, _, _, _, _, _ => ⟨[], rfl⟩
  | n :: sizes, p, c, h, hfit, hc, hn, hT, hsum, hnow => by
    have hn0 := hn n List.mem_cons_self
    rw [List.sum_cons] at hsum
    rw [List.length_cons, Nat.succ_mul] at hnow
    have hle : (allocCounts c n).2 ≤ T := (le_foldl_allocCounts sizes _).trans hT
    cases ha : allocPages N p.fl n with
    | none =>
      have := (allocPages_none_counts hc ha).2
      omega
    | some r =>
      have hs : (p.alloc N n).2 = some r.2 := by
        rw [alloc_served hn0.1 (by omega) ha]
      have hord := size_le (orderOf_le n)
      obtain ⟨s1, s2, s3, -, s5⟩ := Pool.alloc_spec h hfit hc hn0 (by omega) hs
      obtain ⟨is, e⟩ := Pool.allocEach_served sizes s1 s2 s3
        (fun m hm => hn m (List.mem_cons_of_mem _ hm)) hT (by omega) (by omega)
      exact ⟨r.2 :: is, by simp only [Pool.allocEach, hs, e, List.map_cons]⟩

/-- The numbers of blocks below the highest order, of a memory with no live allocation. -/
def bitCounts (N : Nat) : List Nat := (List.range' 0 maxOrder).map fun o => N / 2 ^ o % 2

theorem Canon.counted {fl : FreeLists} (h : Canon fl) (he : Exact N (blocks fl)) :
    Counted (N / 2 ^ maxOrder) fl (bitCounts (N % 2 ^ maxOrder), 0) := by
  refine ⟨(?_ : counts fl 0 maxOrder = bitCounts (N % 2 ^ maxOrder)), h.length_top he⟩
  unfold counts bitCounts
  refine List.map_congr_left fun o ho => ?_
  have ho : o < maxOrder := by
    have := List.mem_range'_1.mp ho
    omega
  rw [h.length_eq he ho]
  have hdvd : 2 ^ o * 2 ∣ 2 ^ maxOrder := by
    rw [← pow_succ]
    exact Nat.pow_dvd_pow 2 ho
  have hmod : ∀ m, m / 2 ^ o % 2 = m % (2 ^ o * 2) / 2 ^ o := fun m => by
    rw [Nat.mod_mul_right_div_self]
  rw [hmod, hmod, Nat.mod_mod_of_dvd N hdvd]

theorem served_map_some : ∀ (is sizes : List Nat), Pool.served (is.map some) sizes = is.zip sizes
  | [], _ => rfl
  | _ :: _, [] => rfl
  | i :: is, n :: sizes => by
    rw [List.map_cons, List.zip_cons_cons, Pool.served, served_map_some]

theorem Pool.freeEach_now {N : Nat} : ∀ (l : List Seg) (p : Pool),
    p.now + (l.map Prod.snd).sum < 2 ^ 32 →
    (p.freeEach N l).now = p.now + (l.map Prod.snd).sum
  | [], _, _ => rfl
  | x :: l, p, h => by
    rw [List.map_cons, List.sum_cons] at h ⊢
    have hnow : (p.free N x.1 x.2).now = p.now + x.2 := u32_of_lt (by omega)
    rw [Pool.freeEach, Pool.freeEach_now l _ (by omega), hnow, Nat.add_assoc]

theorem freePages_two_pow (N : Nat) (fl : FreeLists) (i : Nat) {o : Nat} (ho : o ≤ maxOrder) :
    freePages N 32 fl i (2 ^ o) 0 = freeSub N fl i o := by
  unfold maxOrder at ho
  interval_cases o <;> rfl

/-- **Releases of aligned blocks keep the lists aligned and coalesced.** -/
theorem Pool.freeEach_canon {N : Nat} : ∀ (l : List Seg) {p : Pool}, Canon p.fl →
    Exact N (blocks p.fl ++ (l ++ live)) →
    (∀ x ∈ l, ∃ o ≤ maxOrder, x.2 = 2 ^ o ∧ 2 ^ o ∣ x.1) → Canon (p.freeEach N l).fl
  | [], _, h, _, _ => h
  | x :: l, p, h, he, hl => by
    obtain ⟨o, ho, hx, ha⟩ := hl x List.mem_cons_self
    have hlt : x.2 < 2 ^ (maxOrder + 1) :=
      hx ▸ Nat.pow_lt_pow_right (by decide) (Nat.lt_succ_of_le ho)
    refine Pool.freeEach_canon l ?_ (free_exact he hlt) fun y hy => hl y (List.mem_cons_of_mem _ hy)
    unfold Pool.free
    rw [hx, freePages_two_pow N p.fl x.1 ho]
    exact freeSub_canon h (fun q hq j hj => block_lt he.fits hq hj) ha ho

theorem allocEach_short (start : Nat) : ∀ (sizes : List Nat) (s : BuddyMm),
    (∀ n ∈ sizes, n > s.phyPageNowCount) →
    allocEach start sizes s = .ok (s, sizes.map fun n => (0, n))
  | [], _, _ => rfl
  | n :: sizes, s, h => allocEach_cons (buddyAllocPages_short s (h n List.mem_cons_self))
      (allocEach_short start sizes s fun m hm => h m (List.mem_cons_of_mem _ hm))

theorem Pool.allocEach_length {N : Nat} : ∀ (sizes : List Nat) (p : Pool),
    (p.allocEach N sizes).2.length = sizes.length
  | [], _ => rfl
  | n :: sizes, p => by
    simp only [Pool.allocEach, List.length_cons, Pool.allocEach_length sizes]

theorem Pool.length_of_served {sizes is : List Nat} (h : (p.allocEach N sizes).2 = is.map some) :
    is.length = sizes.length := by
  rw [← Pool.allocEach_length sizes p, h, List.length_map]

/-- The sizes of what a round frees. -/
theorem pages_sizes (N : Nat) (sizes : List Nat) (p : Pool) :
    (((p.allocEach N sizes).2.map (allocAddr M)).zip sizes).map Prod.snd = sizes :=
  List.map_snd_zip (by rw [List.length_map, Pool.allocEach_length])

/-! ## Requests in rising order -/

theorem le_orderFrom_self (n : Nat) : ∀ (k o : Nat), o ≤ orderFrom n o k
  | 0, _ => le_rfl
  | k + 1, o => by
    unfold orderFrom
    split
    · exact le_rfl
    · exact (Nat.le_succ o).trans (le_orderFrom_self n k (o + 1))

theorem orderFrom_mono {n m : Nat} (h : n ≤ m) : ∀ (k o : Nat), orderFrom n o k ≤ orderFrom m o k
  | 0, _ => le_rfl
  | k + 1, o => by
    unfold orderFrom
    by_cases hn : n ≤ 2 ^ o
    · rw [if_pos hn]
      split
      · exact le_rfl
      · exact (Nat.le_succ o).trans (le_orderFrom_self m k (o + 1))
    · rw [if_neg hn, if_neg (by omega)]
      exact orderFrom_mono h k (o + 1)

/-- No block of an order is found only when none of a higher order is. -/
theorem allocSub_none_mono {fl : FreeLists} {o o' : Nat} (h : allocSub fl o = none) (hle : o ≤ o')
    (ho' : o' ≤ maxOrder) : allocSub fl o' = none := by
  induction o', hle using Nat.le_induction with
  | base => exact h
  | succ o' _ ih =>
    have ih := ih (by omega)
    cases hfl : fl o' with
    | nil => rwa [allocSub_nil (by omega) hfl, Option.map_eq_none_iff] at ih
    | cons i is =>
      rw [allocSub_cons (by omega) hfl] at ih
      cases ih

/-- A request that is not served leaves the pool as it was. -/
theorem Pool.alloc_of_none {n : Nat} (h : (p.alloc N n).2 = none) : p.alloc N n = (p, none) := by
  rcases alloc_cases N p n with e | ⟨fl', i, -, -, -, e⟩
  · exact e
  · rw [e] at h
    cases h

/-- When a request is not served, no longer one is. -/
theorem Pool.alloc_none_mono {n m : Nat} (h : (p.alloc N n).2 = none) (hn : 0 < n) (hle : n ≤ m) :
    p.alloc N m = (p, none) := by
  by_cases hnow : n > p.now
  · exact alloc_short (by omega)
  · refine alloc_none ?_
    cases ha : allocPages N p.fl n with
    | some r =>
      rw [alloc_served hn (by omega) ha] at h
      cases h
    | none =>
      unfold allocPages at ha ⊢
      rw [Option.map_eq_none_iff] at ha ⊢
      exact allocSub_none_mono ha (orderFrom_mono hle maxOrder 0) (orderOf_le m)

theorem Pool.allocEach_of_none : ∀ (sizes : List Nat), (∀ n ∈ sizes, p.alloc N n = (p, none)) →
    p.allocEach N sizes = (p, List.replicate sizes.length none)
  | [], _ => rfl
  | n :: sizes, h => by
    have hn := h n List.mem_cons_self
    have ih := Pool.allocEach_of_none sizes fun m hm => h m (List.mem_cons_of_mem _ hm)
    simp only [Pool.allocEach, hn, ih, List.length_cons, List.replicate_succ]

/-- **Of requests in rising order all are served, or the last one is not.** -/
theorem Pool.allocEach_last : ∀ (sizes : List Nat) (p : Pool), (∀ n ∈ sizes, 0 < n) →
    sizes.Pairwise (· ≤ ·) →
    (∃ is : List Nat, (p.allocEach N sizes).2 = is.map some) ∨
      ∃ rs, (p.allocEach N sizes).2 = rs ++ [none]
  | [], _, _, _ => .inl ⟨[], rfl⟩
  | n :: sizes, p, hpos, hs => by
    obtain ⟨hle, hs⟩ := List.pairwise_cons.mp hs
    cases ha : (p.alloc N n).2 with
    | none =>
      right
      refine ⟨List.replicate sizes.length none, ?_⟩
      rw [Pool.allocEach_of_none (n :: sizes) fun m hm => ?_]
      · rw [List.length_cons, List.replicate_succ']
      · rcases List.mem_cons.mp hm with rfl | hm
        · exact alloc_of_none ha
        · exact alloc_none_mono ha (hpos n List.mem_cons_self) (hle m hm)
    | some i =>
      rcases Pool.allocEach_last sizes (p.alloc N n).1
        (fun m hm => hpos m (List.mem_cons_of_mem _ hm)) hs with ⟨is, h⟩ | ⟨rs, h⟩
      · exact .inl ⟨i :: is, by simp only [Pool.allocEach, ha, h, List.map_cons]⟩
      · exact .inr ⟨some i :: rs, by simp only [Pool.allocEach, ha, h, List.cons_append]⟩

/-! ## A misplaced block -/

/-- Stuck blocks stay, whatever is given back. -/
theorem Pool.freeEach_stuck {i o i' o' : Nat} : ∀ (l : List Seg) {p : Pool},
    Stuck p.fl i o i' o' → Exact N (blocks p.fl ++ (l ++ live)) →
    (∀ x ∈ l, x.2 < 2 ^ (maxOrder + 1)) → Stuck (p.freeEach N l).fl i o i' o'
  | [], _, h, _, _ => h
  | x :: l, p, h, he, hl => by
    have hx := hl x List.mem_cons_self
    exact Pool.freeEach_stuck l (freePages_stuck 32 h (by simp) hx (free_fits he))
      (free_exact he hx) fun y hy => hl y (List.mem_cons_of_mem _ hy)

/-- What giving back 18 pages leaves behind: a block of 16 pages that starts at no multiple of 16,
and stays. -/
def Misplaced (fl : FreeLists) : Prop := ∃ a, 32 ∣ a ∧ Stuck fl (a + 2) 4 (a + 18) 1

/-- **Allocations of 8, 16, 18 and more pages, freed in this order, leave a misplaced block.** -/
theorem Pool.freeEach_misplaced {a b c : Nat} {l : List Seg} (h : Canon p.fl)
    (he : Exact N (blocks p.fl ++ ((a, 8) :: (b, 16) :: (c, 18) :: l)))
    (ha : 8 ∣ a) (hb : 16 ∣ b) (hc : 32 ∣ c) (hcN : c + 32 ≤ N)
    (hl : ∀ x ∈ l, 8 ∣ x.1 ∧ x.2 < 2 ^ (maxOrder + 1)) :
    Misplaced (p.freeEach N ((a, 8) :: (b, 16) :: (c, 18) :: l)).fl := by
  have hlt : 18 < 2 ^ (maxOrder + 1) := by decide
  have hcanon : Canon (p.freeEach N [(a, 8), (b, 16)]).fl := by
    have he' : Exact N (blocks p.fl ++ ([(a, 8), (b, 16)] ++ (c, 18) :: l)) := he
    refine Pool.freeEach_canon _ h he' fun x hx => ?_
    simp only [List.mem_cons, List.not_mem_nil, or_false] at hx
    rcases hx with rfl | rfl
    · exact ⟨3, by decide, rfl, ha⟩
    · exact ⟨4, by decide, rfl, hb⟩
  have he2 : Exact N (blocks (p.freeEach N [(a, 8), (b, 16)]).fl ++ (c, 18) :: l) :=
    free_exact (free_exact he (lt_of_lt_of_le (by decide : 8 < 18) hlt.le))
      (lt_of_lt_of_le (by decide : 16 < 18) hlt.le)
  have hsplit : p.freeEach N ((a, 8) :: (b, 16) :: (c, 18) :: l) =
      ((p.freeEach N [(a, 8), (b, 16)]).free N c 18).freeEach N l := rfl
  rw [hsplit]
  have he3 : Exact N (blocks ((p.freeEach N [(a, 8), (b, 16)]).free N c 18).fl ++ (l ++ [])) := by
    rw [List.append_nil]
    exact free_exact he2 hlt
  refine ⟨c, hc, Pool.freeEach_stuck l ?_ he3 fun x hx => (hl x hx).2⟩
  refine free_18_stuck hcanon hc (free_fits he2) fun q hq hq' => ?_
  -- pages behind the 18 are in no other allocation: these start at multiples of 8
  have hlive : cover l q = 0 := by
    by_contra hne
    obtain ⟨x, hx, hxq⟩ := cover_pos.mp (Nat.pos_of_ne_zero hne)
    obtain ⟨hx8, -⟩ := hl x hx
    rw [Seg.mem_cells] at hxq
    have h16 := cover_pos.mpr ⟨x, hx, Seg.mem_cells.mpr (⟨by omega, by omega⟩ :
      x.1 ≤ c + 16 ∧ c + 16 < x.1 + x.2)⟩
    have := he2 (c + 16)
    rw [cover_append, cover_cons, if_pos (by simp only; omega)] at this
    split_ifs at this
    omega
  have := he2 q
  rw [cover_append, cover_cons, hlive, if_neg (by simp only; omega), if_pos (by omega)] at this
  omega

end Served

end Hurlex.Buddy
