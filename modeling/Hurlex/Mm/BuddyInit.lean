import Hurlex.Mm.BuddyPool

/-!
# Cutting the memory into blocks

The loops of `buddy_page_init` cut the pages from the front into blocks of the highest order that
fits. `Cut M s fl p`: the pages before `p` are cut. Blocks below the highest order come one of each
at most, at a multiple of twice their size, so that no two are buddies.
-/

namespace Hurlex.Buddy

open Lib

/-- The pages before `p` lie in free blocks, aligned and coalesced. -/
structure Cut (M : PhyMem) (s : BuddyMm) (fl : FreeLists) (p : Nat) : Prop where
  rep : Rep M s fl
  canon : Canon fl
  exact : Exact p (blocks fl)

variable {M : PhyMem} {s : BuddyMm} {fl : FreeLists} {n p o : Nat}

/-- The pages behind those the blocks share out head none. -/
theorem notMem_of_exact (h : Exact p (blocks fl)) {i o' : Nat} (ho' : o' ≤ maxOrder) (hi : p ≤ i) :
    i ∉ fl o' := by
  intro hm
  have h1 := cover_head ho' hm
  rw [h i, if_neg (by omega)] at h1
  omega

/-- The next block, on the lists. -/
theorem canon_next (h : Canon fl) (he : Exact p (blocks fl)) (ho : o ≤ maxOrder) (ha : 2 ^ o ∣ p)
    (hb : o < maxOrder → 2 ^ (o + 1) ∣ p) : Canon (put fl p o) := by
  refine h.put ha fun hlt => ?_
  rw [buddy_of_clear (clear_of_dvd (hb hlt))]
  exact notMem_of_exact he ho (Nat.le_add_right _ _)

theorem exact_next (h : Exact p (blocks fl)) (ho : o ≤ maxOrder) :
    Exact (p + 2 ^ o) (blocks (put fl p o)) := by
  intro q
  have hpos := Nat.two_pow_pos o
  rw [cover_put ho, cover_cons, h q]
  split_ifs <;> omega

/-- The next block. -/
theorem Cut.step (h : Cut M s fl p) (ho : o ≤ maxOrder) (ha : 2 ^ o ∣ p)
    (hb : o < maxOrder → 2 ^ (o + 1) ∣ p) : Cut M (putBlock s p o) (put fl p o) (p + 2 ^ o) :=
  ⟨putBlock_rep h.rep ho fun _ ho' => notMem_of_exact h.exact ho' le_rfl,
    canon_next h.canon h.exact ho ha hb, exact_next h.exact ho⟩

/-! ## The loops -/

/-- `P`, of the memory, the free lists and the first page not cut yet, is kept by the next block of
`N` pages. -/
def Kept (N : Nat) (P : BuddyMm → FreeLists → Nat → Prop) : Prop :=
  ∀ ⦃s fl p o⦄, P s fl p → o ≤ maxOrder → 2 ^ o ∣ p → (o < maxOrder → 2 ^ (o + 1) ∣ p) →
    p + 2 ^ o ≤ N → P (putBlock s p o) (put fl p o) (p + 2 ^ o)

/-- What the inner loop leaves. -/
theorem initOrder_left (o : Nat) : ∀ (fuel : Nat) (s : BuddyMm) {n p : Nat}, n ≤ fuel →
    (initOrder o fuel s n p).2.1 ≤ n ∧ (initOrder o fuel s n p).2.1 < 2 ^ o ∧
      (initOrder o fuel s n p).2.1 + (initOrder o fuel s n p).2.2 = n + p ∧
      (2 ^ o ∣ p → 2 ^ o ∣ (initOrder o fuel s n p).2.2)
  | 0, s, n, p, hf => by
    have hpos := Nat.two_pow_pos o
    have hn : n < 2 ^ o := by omega
    exact ⟨le_rfl, hn, rfl, id⟩
  | fuel + 1, s, n, p, hf => by
    have hpos := Nat.two_pow_pos o
    unfold initOrder
    by_cases hle : n ≥ 2 ^ o
    · rw [if_pos hle]
      obtain ⟨h1, h2, h3, h4⟩ := initOrder_left o fuel (putBlock s p o) (n := n - 2 ^ o)
        (p := p + 2 ^ o) (by omega)
      exact ⟨by omega, h2, by omega, fun ha => h4 ((Nat.dvd_add_right ha).mpr dvd_rfl)⟩
    · rw [if_neg hle]
      exact ⟨le_rfl, Nat.lt_of_not_le hle, rfl, id⟩

section Kept

variable {N : Nat} {P : BuddyMm → FreeLists → Nat → Prop}

/-- The inner loop. -/
theorem initOrder_kept (hP : Kept N P) (ho : o ≤ maxOrder) : ∀ (fuel : Nat) {s : BuddyMm}
    {fl : FreeLists} {n p : Nat}, P s fl p → n + p = N → 2 ^ o ∣ p →
    (o < maxOrder → n < 2 ^ (o + 1) ∧ (2 ^ o ≤ n → 2 ^ (o + 1) ∣ p)) →
    ∃ fl', P (initOrder o fuel s n p).1 fl' (initOrder o fuel s n p).2.2
  | 0, s, fl, n, p, h, _, _, _ => ⟨fl, h⟩
  | fuel + 1, s, fl, n, p, h, hN, ha, hb => by
    have hpos := Nat.two_pow_pos o
    have h2o : 2 ^ (o + 1) = 2 ^ o + 2 ^ o := by rw [pow_succ]; omega
    unfold initOrder
    by_cases hle : n ≥ 2 ^ o
    · rw [if_pos hle]
      refine initOrder_kept hP ho fuel (hP h ho ha (fun hlt => (hb hlt).2 hle) (by omega))
        (by omega) ((Nat.dvd_add_right ha).mpr dvd_rfl) fun hlt => ?_
      have := (hb hlt).1
      exact ⟨by omega, fun hge => by omega⟩
    · rw [if_neg hle]
      exact ⟨fl, h⟩

/-- The outer loop. -/
theorem initBlocks_kept (hP : Kept N P) : ∀ (o : Nat) {s : BuddyMm} {fl : FreeLists} {n p : Nat},
    P s fl p → n + p = N → o ≤ maxOrder → 2 ^ o ∣ p →
    (o < maxOrder → n < 2 ^ (o + 1) ∧ 2 ^ (o + 1) ∣ p) →
    ∃ s' fl', initBlocks s n p o = .ok s' ∧ P s' fl' N
  | o, s, fl, n, p, h, hN, ho, ha, hb => by
    obtain ⟨fl', h1⟩ := initOrder_kept hP ho n h hN ha fun hlt => ⟨(hb hlt).1, fun _ => (hb hlt).2⟩
    obtain ⟨-, h2, h3, h4⟩ := initOrder_left o n s (p := p) le_rfl
    by_cases hn : n = 0
    · subst hn
      rw [Nat.zero_add] at hN
      refine ⟨s, fl, ?_, hN ▸ h⟩
      cases o <;> exact if_pos rfl
    · cases o with
      | zero =>
        have hz : (initOrder 0 n s n p).2.1 = 0 := by
          rw [pow_zero] at h2
          omega
        refine ⟨(initOrder 0 n s n p).1, fl', ?_, ?_⟩
        · unfold initBlocks
          rw [if_neg hn]
          exact if_pos hz
        · rw [hz, Nat.zero_add, hN] at h3
          rwa [h3] at h1
      | succ o =>
        obtain ⟨s', fl₂, g1, g2⟩ := initBlocks_kept hP o h1 (h3.trans hN) (by omega)
          ((Nat.pow_dvd_pow 2 (Nat.le_succ o)).trans (h4 ha)) fun _ => ⟨h2, h4 ha⟩
        refine ⟨s', fl₂, ?_, g2⟩
        unfold initBlocks
        rw [if_neg hn]
        exact g1

end Kept

/-! ## The empty lists -/

theorem initFreeArea_frame (s : BuddyMm) (i o : Nat) :
    (initFreeArea s i).mem.links.next (.head o) =
        (if o = i then .head o else s.mem.links.next (.head o)) ∧
      (initFreeArea s i).mem.links.prev (.head o) =
        (if o = i then .head o else s.mem.links.prev (.head o)) ∧
      (initFreeArea s i).nrFree o = (if o = i then 0 else s.nrFree o) := by
  by_cases h : o = i
  · subst h
    simp [initFreeArea, initListHead]
  · have hne : (Node.head o : PageNode) ≠ .head i := fun e => h (Node.head.inj e)
    simp [initFreeArea, initListHead, h]

theorem initFreeAreas_spec : ∀ (os : List Nat) (s : BuddyMm),
    (∀ o, o ∈ os ∨ s.mem.links.next (.head o) = .head o ∧ s.mem.links.prev (.head o) = .head o ∧
        s.nrFree o = 0 →
      (os.foldl initFreeArea s).mem.links.next (.head o) = .head o ∧
        (os.foldl initFreeArea s).mem.links.prev (.head o) = .head o ∧
        (os.foldl initFreeArea s).nrFree o = 0) ∧
      (os.foldl initFreeArea s).mem.page = s.mem.page ∧
      (os.foldl initFreeArea s).pagesBase = s.pagesBase ∧
      (os.foldl initFreeArea s).phyPageCount = s.phyPageCount ∧
      (os.foldl initFreeArea s).phyPageNowCount = s.phyPageNowCount
  | [], _ => ⟨fun _ h => h.resolve_left List.not_mem_nil, rfl, rfl, rfl, rfl⟩
  | i :: os, s => by
    obtain ⟨h1, h2⟩ := initFreeAreas_spec os (initFreeArea s i)
    refine ⟨fun o h => h1 o ?_, h2⟩
    obtain ⟨e1, e2, e3⟩ := initFreeArea_frame s i o
    rw [e1, e2, e3]
    by_cases ho : o = i
    · subst ho
      simp
    · rw [if_neg ho, if_neg ho, if_neg ho]
      exact h.imp (fun hm => (List.mem_cons.mp hm).resolve_left ho) id

theorem initFreeAreas_linked (s : BuddyMm) :
    Linked ((List.range (maxOrder + 1)).foldl initFreeArea s) fun _ => [] := by
  have h1 := (initFreeAreas_spec (List.range (maxOrder + 1)) s).1
  have hmem : ∀ o ≤ maxOrder, o ∈ List.range (maxOrder + 1) := fun o ho =>
    List.mem_range.mpr (Nat.lt_succ_of_le ho)
  refine ⟨fun o ho => ?_, fun o ho => (h1 o (.inl (hmem o ho))).2.2, ?_⟩
  · obtain ⟨e1, e2, -⟩ := h1 o (.inl (hmem o ho))
    exact LinkRing.nil_iff.mpr ⟨e1, e2⟩
  · exact fun _ _ _ hi => absurd hi List.not_mem_nil

theorem canon_nil : Canon fun _ => [] :=
  ⟨fun _ _ _ hi => absurd hi List.not_mem_nil, fun _ _ _ hi => absurd hi List.not_mem_nil⟩

theorem exact_nil_blocks : Exact 0 (blocks fun _ => []) := by
  intro q
  have hnil : blocks (fun _ => []) = [] := by
    simp only [blocks, List.map_nil, List.flatMap_eq_nil_iff]
    exact fun _ _ => trivial
  rw [hnil, if_neg (Nat.not_lt_zero q)]
  rfl

theorem initFreeAreas_cut (hzero : ∀ i < M.count, s.mem.page (.entry i) = Page.zero)
    (hbase : s.pagesBase = 0) (hcount : s.phyPageCount = M.count)
    (hnow : s.phyPageNowCount < 2 ^ 32) :
    Cut M ((List.range (maxOrder + 1)).foldl initFreeArea s) (fun _ => []) 0 := by
  obtain ⟨-, h2, h3, h4, h5⟩ := initFreeAreas_spec (List.range (maxOrder + 1)) s
  obtain ⟨hring, hnr, hhead⟩ := initFreeAreas_linked s
  refine ⟨⟨hring, hnr, hhead, fun i hi hf => ?_, h3.trans hbase, h4.trans hcount, by rwa [h5]⟩,
    canon_nil, exact_nil_blocks⟩
  rw [h2, hzero i hi] at hf
  exact absurd hf (by decide)

/-- **`buddy_page_init` cuts the memory into aligned blocks, no two of them buddies**, and goes on
with the self-test. -/
theorem buddyPageInit_eq (hzero : ∀ i < M.count, s.mem.page (.entry i) = Page.zero) :
    ∃ s₁ fl, buddyPageInit M.start s 0 M.count = buddyTestMm M.start s₁ ∧
      Cut M s₁ fl M.count ∧ s₁.phyPageNowCount = M.count := by
  have hpos := M.count_pos
  have hlt := M.count_lt
  have hlast : u32Sub (0 + M.count) 1 = M.count - 1 := by
    rw [Nat.zero_add, u32Sub_of_le (by omega) hpos]
  have hkept : Kept M.count fun s fl p => Cut M s fl p ∧ s.phyPageNowCount = M.count :=
    fun _ _ _ _ h ho ha hb _ => ⟨h.1.step ho ha hb, h.2⟩
  let s₀ : BuddyMm := ⟨s.mem, s.nrFree, 0, M.addr 0, u32 (M.addr (M.count - 1) + pageSize), M.count,
    M.count⟩
  have hcut := initFreeAreas_cut (s := s₀) hzero rfl rfl (by show M.count < 2 ^ 32; omega)
  obtain ⟨s₁, fl, h1, h2, h3⟩ := initBlocks_kept hkept maxOrder
    ⟨hcut, (initFreeAreas_spec _ s₀).2.2.2.2⟩ (Nat.add_zero _) le_rfl (Nat.dvd_zero _)
    fun hlt => absurd hlt (Nat.lt_irrefl _)
  refine ⟨s₁, fl, ?_, h2, h3⟩
  rw [buddyPageInit, M.pageToAddr_eq (Nat.zero_le _), hlast, M.pageToAddr_eq (by omega)]
  simp only [bind, Except.bind]
  rw [h1]

end Hurlex.Buddy
