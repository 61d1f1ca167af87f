import Hurlex.Mm.BuddyServe

/-!
# Blocks beyond the managed pages

An allocation that is not served returns `0`, and `buddy_free_pages` takes that for the address of
a page: of page `stray M`, far beyond the managed ones. Blocks given back there are never merged;
each goes to the front of its list.
-/

namespace Hurlex.Buddy

open Lib

/-- The index `addr_to_page` computes for address `0`. -/
def stray (M : PhyMem) : Nat := 2 ^ 20 - M.start / pageSize

variable {M : PhyMem} {s : BuddyMm} {i o p : Nat}

theorem stray_bounds (M : PhyMem) : M.count + 2 ^ 19 ≤ stray M ∧ stray M < 2 ^ 20 ∧
    stray M * pageSize + M.start = 2 ^ 32 := by
  obtain ⟨q, hq⟩ := M.aligned
  have h1 := M.kernel
  have h2 := M.high
  have h3 : pageSize = 4096 := rfl
  have h4 : zoneHighmemAddr = 0x38000000 := rfl
  have h5 : ramKernelStart = 0x100000 := rfl
  have hdiv : M.start / pageSize = q := by
    rw [hq]
    exact Nat.mul_div_cancel_left q (by decide)
  unfold stray
  rw [hdiv]
  rw [h3] at hq h2 ⊢
  omega

theorem addrToPage_zero (M : PhyMem) :
    u32Sub (0 / pageSize * pageSize) M.start / pageSize = stray M := by
  obtain ⟨-, -, h⟩ := stray_bounds M
  have hpos := M.pos
  have hval : u32Sub (0 / pageSize * pageSize) M.start = stray M * pageSize := by
    unfold u32Sub
    rw [Nat.zero_div, Nat.zero_mul, Nat.zero_add, ← h, Nat.add_sub_cancel, h,
      Nat.mod_eq_of_lt (by omega)]
  rw [hval, Nat.mul_div_cancel _ (by decide)]

/-! ## What a release beyond the managed pages does -/

theorem pageIsBuddy_stray (h : Manages M s) (hi : M.count ≤ i) (hi' : i < 2 ^ 32) :
    pageIsBuddy s (idxToPage s i) o = false := by
  unfold pageIsBuddy pageToIdx idxToPage
  rw [h.base, h.count, Nat.zero_add, u32Sub_of_le hi' (Nat.zero_le _), Nat.sub_zero,
    if_neg (by omega)]

theorem clearRefs_links (s : BuddyMm) (b n : Nat) :
    (clearRefs s b n).mem.links = s.mem.links := by
  have key : ∀ (ps : List Nat) (mem : PageMem Nat),
      (ps.foldl (fun mem p => mem.modify (.entry p) (Page.setRef 0)) mem).links = mem.links := by
    intro ps
    induction ps with
    | nil => exact fun _ => rfl
    | cons p ps ih => exact fun mem => ih (mem.modify (.entry p) (Page.setRef 0))
  exact key _ _

/-- A block beyond the managed pages goes to the front of its list unmerged. -/
theorem buddyFreePagesSub_stray (h : Manages M s) (ho : o ≤ maxOrder)
    (hi : M.count + 2 ^ maxOrder ≤ i) (hi' : i < 2 ^ 31) :
    buddyFreePagesSub s i o = putBlock (clearRefs s i (2 ^ o)) i o := by
  have hidx : pageToIdx s i = i := by
    rw [pageToIdx, h.base, u32Sub_of_le (by omega) (Nat.zero_le _), Nat.sub_zero]
  have hle := size_le ho
  have hm : 2 ^ maxOrder = 1024 := rfl
  have hpos := Nat.two_pow_pos o
  have hb : M.count ≤ buddy i o ∧ buddy i o < 2 ^ 32 := by
    rcases mergeBase_cases i o with ⟨-, e⟩ | ⟨-, e⟩ <;> omega
  have hco : coalesce (clearRefs s i (2 ^ o)) i o (maxOrder - o) =
      (clearRefs s i (2 ^ o), i, o) := by
    cases maxOrder - o with
    | zero => rfl
    | succ k =>
      refine coalesce_neg ?_
      have h' : Manages M (clearRefs s i (2 ^ o)) := ⟨h.base, h.count⟩
      rw [pageIsBuddy_stray h' hb.1 hb.2]
      decide
  have hpage : idxToPage (clearRefs s i (2 ^ o)) i = i := by
    have hb : (clearRefs s i (2 ^ o)).pagesBase = 0 := h.base
    rw [idxToPage, hb, Nat.zero_add]
  unfold buddyFreePagesSub
  simp only [hidx, hco, hpage]

/-- The first block of a list. -/
def firstOf (s : BuddyMm) (o : Nat) : PageNode := s.mem.links.next (.head o)

theorem firstOf_put (s : BuddyMm) (i o p : Nat) :
    firstOf (putBlock s i o) p = if o = p then .entry i else firstOf s p := by
  have h1 : (Node.head p : PageNode) ≠ .entry i := by simp
  by_cases h : o = p
  · subst h
    simp [firstOf, putBlock, listAdd, listAddBetween]
  · have h2 : (Node.head p : PageNode) ≠ .head o := fun e => h (Node.head.inj e).symm
    simp [firstOf, putBlock, listAdd, listAddBetween, h, Ne.symm h]

/-- The front of a list after blocks beyond the managed pages were given back: the last one of its
order. -/
theorem firstOf_freeBlocks (o : Nat) : ∀ (bs : List (Nat × Nat)) {s : BuddyMm}, Manages M s →
    (∀ x ∈ bs, x.2 ≤ maxOrder ∧ M.count + 2 ^ maxOrder ≤ x.1 ∧ x.1 < 2 ^ 31) →
    firstOf (freeBlocks s bs) o =
      bs.foldl (fun le x => if x.2 = o then Node.entry x.1 else le) (firstOf s o)
  | [], _, _, _ => rfl
  | x :: bs, s, h, hb => by
    obtain ⟨h1, h2, h3⟩ := hb x List.mem_cons_self
    obtain ⟨f1, f2, -⟩ := freeBlocks_frame [x] s
    have hm : Manages M (buddyFreePagesSub s x.1 x.2) := ⟨f1.trans h.base, f2.trans h.count⟩
    have hcons : freeBlocks s (x :: bs) = freeBlocks (buddyFreePagesSub s x.1 x.2) bs := rfl
    rw [hcons, firstOf_freeBlocks o bs hm fun y hy => hb y (List.mem_cons_of_mem _ hy),
      List.foldl_cons, buddyFreePagesSub_stray h h1 h2 h3, firstOf_put]
    rw [firstOf, clearRefs_links, ← firstOf]

/-- **Blocks beyond the managed pages join the lists**, which keep what they had. -/
theorem freeBlocks_stray_rep : ∀ (bs : List (Nat × Nat)) {s : BuddyMm} {fl : FreeLists},
    Rep M s fl →
    (∀ x ∈ bs, x.2 ≤ maxOrder ∧ M.count + 2 ^ maxOrder ≤ x.1 ∧ x.1 < 2 ^ 31) →
    (bs.map Prod.fst).Nodup → (∀ x ∈ bs, ∀ o ≤ maxOrder, x.1 ∉ fl o) →
    ∃ fl', Rep M (freeBlocks s bs) fl' ∧ ∀ o i, i ∈ fl o → i ∈ fl' o
  | [], _, fl, h, _, _, _ => ⟨fl, h, fun _ _ hi => hi⟩
  | x :: bs, s, fl, h, hb, hnd, hnew => by
    obtain ⟨h1, h2, h3⟩ := hb x List.mem_cons_self
    obtain ⟨hx, hnd⟩ := List.nodup_cons.mp hnd
    have hput := putBlock_rep (clearRefs_rep h x.1 (2 ^ x.2)) h1 (hnew x List.mem_cons_self)
    rw [← buddyFreePagesSub_stray ⟨h.base, h.count⟩ h1 h2 h3] at hput
    obtain ⟨fl', e1, e2⟩ := freeBlocks_stray_rep bs hput
      (fun y hy => hb y (List.mem_cons_of_mem _ hy)) hnd fun y hy o ho hm => by
        by_cases hox : o = x.2
        · subst hox
          rw [put_self] at hm
          rcases List.mem_cons.mp hm with e | hm
          · exact hx (e ▸ List.mem_map_of_mem hy)
          · exact hnew y (List.mem_cons_of_mem _ hy) _ ho hm
        · rw [put_of_ne fl x.1 hox] at hm
          exact hnew y (List.mem_cons_of_mem _ hy) o ho hm
    exact ⟨fl', e1, fun o i hi => e2 o i (mem_put hi)⟩

/-! ## Address `0` -/

/-- Pages freed at address `0`: their pieces go to the fronts of their lists. -/
theorem buddyFreePages_zero {s' : BuddyMm} (h : Manages M s) {n : Nat} (hn : 0 < n)
    (hn' : n ≤ 2 ^ maxOrder) (hf : buddyFreePages M.start s 0 n = .ok s')
    (hp : ∀ x ∈ pieces 32 (stray M) n 0, x.2 ≤ maxOrder ∧ stray M ≤ x.1 ∧
      x.1 < stray M + 2 ^ maxOrder) :
    Manages M s' ∧ (∀ o, firstOf s' o = (pieces 32 (stray M) n 0).foldl
        (fun le x => if x.2 = o then Node.entry x.1 else le) (firstOf s o)) ∧
      s' = freeBlocks { s with phyPageNowCount := u32 (s.phyPageNowCount + n) }
        (pieces 32 (stray M) n 0) := by
  obtain ⟨h1, h2, -⟩ := stray_bounds M
  have hm : 2 ^ maxOrder = 1024 := rfl
  rw [buddyFreePages_eq M.pos.ne' s _ hn (by omega), addrToPage_zero] at hf
  cases hf
  have h' : Manages M { s with phyPageNowCount := u32 (s.phyPageNowCount + n) } :=
    ⟨h.base, h.count⟩
  obtain ⟨f1, f2, -⟩ := freeBlocks_frame (pieces 32 (stray M) n 0)
    { s with phyPageNowCount := u32 (s.phyPageNowCount + n) }
  refine ⟨⟨f1.trans h.base, f2.trans h.count⟩, fun o => ?_, rfl⟩
  exact firstOf_freeBlocks o _ h' fun x hx => by
    obtain ⟨a, b, c⟩ := hp x hx
    exact ⟨a, by omega, by omega⟩

theorem pieces_547 (b : Nat) :
    pieces 32 b 547 0 = [(b, 0), (b + 1, 1), (b + 3, 5), (b + 35, 9)] := rfl

theorem pieces_129 (b : Nat) : pieces 32 b 129 0 = [(b, 0), (b + 1, 7)] := rfl

/-- After 547 pages were freed at address `0`. -/
theorem firstOf_547 {s' : BuddyMm} (h : Manages M s)
    (hf : buddyFreePages M.start s 0 547 = .ok s') :
    firstOf s' 5 = .entry (stray M + 3) ∧ firstOf s' 9 = .entry (stray M + 35) ∧
      firstOf s' 7 = firstOf s 7 := by
  obtain ⟨-, e, -⟩ := buddyFreePages_zero (n := 547) h (by decide) (by decide) hf (by
    rw [pieces_547]
    simp [maxOrder])
  rw [pieces_547] at e
  exact ⟨e 5, e 9, e 7⟩

/-- After 129 pages were freed at address `0`. -/
theorem firstOf_129 {s' : BuddyMm} (h : Manages M s)
    (hf : buddyFreePages M.start s 0 129 = .ok s') :
    Manages M s' ∧ firstOf s' 7 = .entry (stray M + 1) := by
  obtain ⟨e1, e, -⟩ := buddyFreePages_zero (n := 129) h (by decide) (by decide) hf (by
    rw [pieces_129]
    simp [maxOrder])
  rw [pieces_129] at e
  exact ⟨e1, e 7⟩

/-- 547 pages freed at address `0` leave the blocks on the lists where they were. -/
theorem rep_547 {s' : BuddyMm} {fl : FreeLists} (h : Rep M s fl) (hfit : Fits M.count (blocks fl))
    (hf : buddyFreePages M.start s 0 547 = .ok s') :
    ∃ fl', Rep M s' fl' ∧ ∀ o i, i ∈ fl o → i ∈ fl' o := by
  obtain ⟨h1, h2, -⟩ := stray_bounds M
  have hm : 2 ^ maxOrder = 1024 := rfl
  obtain ⟨-, -, rfl⟩ := buddyFreePages_zero (n := 547) ⟨h.base, h.count⟩ (by decide) (by decide) hf
    (by
      rw [pieces_547]
      simp [maxOrder])
  have h' : Rep M { s with phyPageNowCount := u32 (s.phyPageNowCount + 547) } fl :=
    ⟨h.ring, h.nr, h.head, h.flag, h.base, h.count, Nat.mod_lt _ (by decide)⟩
  have hbs : ∀ x ∈ pieces 32 (stray M) 547 0, x.2 ≤ maxOrder ∧ stray M ≤ x.1 ∧
      x.1 < stray M + 2 ^ maxOrder := by
    rw [pieces_547]
    simp [maxOrder]
  refine freeBlocks_stray_rep _ h' (fun x hx => ?_) (by rw [pieces_547]; simp) fun x hx o ho hi => ?_
  · obtain ⟨a, b, c⟩ := hbs x hx
    exact ⟨a, by omega, by omega⟩
  · obtain ⟨-, b, -⟩ := hbs x hx
    have := block_lt hfit ho hi
    omega

end Hurlex.Buddy
