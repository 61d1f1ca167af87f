import Hurlex.Lib.MaximalRuns
import Hurlex.Mm.FirstFitHistory

/-!
# One call on any well-formed state

`WellFormed` says what the descriptors and the list of a First-Fit state look like, page by page. It is
the same as representing some list of runs (`wellFormed_iff`), which are then the maximal runs of the
free pages. So what the calls do to the runs says what they do from any well-formed state, reachable or
not.

**`ffFreePages_coalesces`**: a free adds its pages to the free ones, and nothing but the set of free
pages decides about the list and the notes.
**`findsFirstFit_iff`**: `ff_alloc_pages` does what First Fit should if the lowest run is long enough,
or nothing is.
-/

namespace Hurlex.FirstFit

open Lib

/-- The free pages: those on `free_list`. -/
def FfMm.free (s : FfMm) : Set Nat := {i | s.mem.links.OnList freeList (.entry i)}

/-- A state as First Fit wants it. -/
structure WellFormed (M : PhyMem) (s : FfMm) : Prop where
  list : ∃ pages : List Nat, LinkRing s.mem.links freeList (pages.map .entry) ∧
    pages.Pairwise (· < ·) ∧ (∀ p ∈ pages, p < M.count) ∧ s.phyPageNowCount = pages.length
  heads : ∀ r, IsRun s.free r →
    (s.mem.page (.entry r.1)).isNcount = true ∧ (s.mem.page (.entry r.1)).num = r.2
  others : ∀ i < M.count, (∀ r, IsRun s.free r → r.1 ≠ i) →
    (s.mem.page (.entry i)).isNcount = false ∧ (s.mem.page (.entry i)).num = 0
  count : s.phyPageCount = M.count

variable {M : PhyMem} {s s' : FfMm} {l : List Seg} {b n c m : Nat}

theorem Rep.free_eq (h : Rep M s l) : s.free = cellSet l := by
  ext i
  show s.mem.links.OnList freeList (.entry i) ↔ _
  rw [h.ring.onList_iff, entry_mem_nodesOf, mem_cellSet]

theorem Rep.isRun_iff (h : Rep M s l) {r : Seg} : IsRun s.free r ↔ r ∈ l := by
  rw [h.free_eq, h.runs.isRun_iff]

theorem Rep.wellFormed (h : Rep M s l) : WellFormed M s where
  list := by
    refine ⟨cellsOf l, h.ring, h.runs.sorted, fun p hp => ?_, ?_⟩
    · obtain ⟨t, ht, hpt⟩ := mem_cellsOf.1 hp
      have := h.inside t ht
      rw [Seg.mem_cells] at hpt
      omega
    · rw [cellsOf_length]
      exact h.now
  heads r hr := by
    have hmem := h.isRun_iff.1 hr
    have hin := h.inside r hmem
    obtain ⟨hnum, hflag⟩ := h.notes r.1 (by have := hr.pos; omega)
    rw [h.runs.headLen_eq hmem] at hnum hflag
    exact ⟨hflag.trans (decide_eq_true hr.pos), hnum⟩
  others i hi hno := by
    obtain ⟨hnum, hflag⟩ := h.notes i hi
    rw [headLen_eq_zero fun t ht => hno t (h.isRun_iff.2 ht)] at hnum hflag
    exact ⟨hflag, hnum⟩
  count := h.count

theorem WellFormed.exists_rep (h : WellFormed M s) : ∃ l, Rep M s l := by
  obtain ⟨pages, hring, hsorted, hlt, hnow⟩ := h.list
  obtain ⟨l, hl, rfl⟩ := exists_separated hsorted
  have hfree : s.free = cellSet l := by
    ext i
    show s.mem.links.OnList freeList (.entry i) ↔ _
    rw [hring.onList_iff, mem_cellSet]
    exact entry_mem_nodesOf
  have hrun {r : Seg} : IsRun s.free r ↔ r ∈ l := by rw [hfree, hl.isRun_iff]
  refine ⟨l, hring, hl, fun t ht => ?_, fun i hi => ?_, h.count, ?_⟩
  · have hpos := hl.pos t ht
    have hlast := hlt (t.1 + t.2 - 1)
      (mem_cellsOf.2 ⟨t, ht, Seg.mem_cells.2 ⟨by omega, by omega⟩⟩)
    omega
  · by_cases hhead : ∃ r ∈ l, r.1 = i
    · obtain ⟨r, hr, rfl⟩ := hhead
      obtain ⟨hflag, hnum⟩ := h.heads r (hrun.2 hr)
      rw [hl.headLen_eq hr, hflag, decide_eq_true (hl.pos r hr)]
      exact ⟨hnum, rfl⟩
    · obtain ⟨hflag, hnum⟩ := h.others i hi fun r hr he => hhead ⟨r, hrun.1 hr, he⟩
      rw [headLen_eq_zero fun t ht he => hhead ⟨t, ht, he⟩]
      exact ⟨hnum, hflag⟩
  · rw [hnow, cellsOf_length]

/-- **A state is well formed if it represents a list of runs.** -/
theorem wellFormed_iff : WellFormed M s ↔ ∃ l, Rep M s l :=
  ⟨WellFormed.exists_rep, fun ⟨_, h⟩ => h.wellFormed⟩

/-- The descriptors that note down the runs `l`. -/
def notesOf (l : List Seg) : PageNode → Page
  | .head _ => .zero
  | .entry i => ⟨0, if 0 < headLen l i then setBit pgNcount 0 else 0, headLen l i⟩

/-- Any separated runs are those of a state in which no page is reserved. -/
theorem exists_state (M : PhyMem) (hl : Separated l) (hin : ∀ t ∈ l, t.1 + t.2 ≤ M.count) :
    ∃ s, Rep M s l ∧ ∀ i, (s.mem.page (.entry i)).isReserved = false := by
  have hnd : (freeList :: nodesOf l).Nodup := by
    refine List.nodup_cons.2 ⟨fun hm => ?_, hl.nodup.map fun _ _ => Node.entry.inj⟩
    obtain ⟨i, -, hi⟩ := List.mem_map.1 hm
    cases hi
  obtain ⟨L, hL⟩ := LinkRing.exists_ring hnd
  refine ⟨⟨⟨L, notesOf l⟩, 0, 0, M.count, total l⟩, ⟨hL, hl, hin, fun i _ => ⟨rfl, ?_⟩, rfl, rfl⟩,
    fun i => ?_⟩
  · show testBit pgNcount (if 0 < headLen l i then setBit pgNcount 0 else 0) = _
    split
    · rename_i hpos
      rw [decide_eq_true hpos]
      decide
    · rename_i hzero
      rw [decide_eq_false hzero]
      decide
  · show testBit pgReserved (if 0 < headLen l i then setBit pgNcount 0 else 0) = false
    split <;> decide

/-! ## `ff_free_pages` -/

/-- `n` managed pages from `b` on, none of them free, that `ff_free_pages` does not refuse. -/
structure Freeable (M : PhyMem) (s : FfMm) (b n : Nat) : Prop where
  pos : 0 < n
  inside : b + n ≤ M.count
  taken : Disjoint s.free (Seg.cells (b, n))
  base : (s.mem.page (.entry b)).isReserved = false

/-- `ff_free_pages` of the `n` pages from `b` on leads from `s` to `s'`. -/
structure Freed (M : PhyMem) (s : FfMm) (b n : Nat) (s' : FfMm) : Prop where
  call : ffFreePages M.start s (M.addr b) n = .ok s'
  wellFormed : WellFormed M s'
  free : s'.free = s.free ∪ Seg.cells (b, n)
  count : s'.phyPageNowCount = s.phyPageNowCount + n

/-- The same list and the same lengths of runs. -/
structure SameRuns (M : PhyMem) (s s' : FfMm) : Prop where
  list : ∃ pages : List Nat, LinkRing s.mem.links freeList (pages.map .entry) ∧
    LinkRing s'.mem.links freeList (pages.map .entry)
  notes : ∀ i < M.count,
    (s.mem.page (.entry i)).isNcount = (s'.mem.page (.entry i)).isNcount ∧
    (s.mem.page (.entry i)).num = (s'.mem.page (.entry i)).num
  count : s.phyPageNowCount = s'.phyPageNowCount

/-- **The free pages decide about the list and the notes.** -/
theorem WellFormed.sameRuns (h : WellFormed M s) (h' : WellFormed M s') (he : s.free = s'.free) :
    SameRuns M s s' := by
  obtain ⟨l, hl⟩ := h.exists_rep
  obtain ⟨l', hl'⟩ := h'.exists_rep
  obtain rfl : l = l' := hl.runs.ext hl'.runs (by rw [← hl.free_eq, he, hl'.free_eq])
  refine ⟨⟨cellsOf l, hl.ring, hl'.ring⟩, fun i hi => ?_, hl.now.trans hl'.now.symm⟩
  obtain ⟨n1, f1⟩ := hl.notes i hi
  obtain ⟨n2, f2⟩ := hl'.notes i hi
  exact ⟨f1.trans f2.symm, n1.trans n2.symm⟩

theorem cellSet_giveBack (A : List Seg) (t : Seg) (B : List Seg) :
    cellSet (giveBack A t B) = cellSet (A ++ B) ∪ t.cells := by
  ext i
  simp only [cellSet, giveBack_cells, cellsOf_append, List.mem_append, Seg.mem_pages, Set.mem_union,
    Set.mem_ofPred_eq]
  tauto

/-- One free, which leaves `PG_RESERVED` alone. -/
theorem WellFormed.freed (h : WellFormed M s) (hf : Freeable M s b n) :
    ∃ s', Freed M s b n s' ∧ SameReserved s.mem s'.mem := by
  obtain ⟨l, hl⟩ := h.exists_rep
  have hdis : ∀ t ∈ l, Disjoint t.cells (Seg.cells (b, n)) := fun t ht =>
    hf.taken.mono_left fun i hi => hl.free_eq ▸ mem_cellSet.2 ⟨t, ht, hi⟩
  obtain ⟨A, B, s', rfl, hcall, hl', hres⟩ := ffFreePages_apart hl hf.pos hf.inside hdis hf.base
  refine ⟨s', ⟨hcall, hl'.wellFormed, ?_, ?_⟩, hres⟩
  · rw [hl'.free_eq, hl.free_eq, cellSet_giveBack]
  · rw [hl'.now, hl.now, giveBack_total, total_append]
    dsimp only
    omega

/-- A range apart from the one that was freed can still be. -/
theorem Freeable.after (hc : Freeable M s c m) (hs : Freed M s b n s')
    (hres : SameReserved s.mem s'.mem) (hd : Disjoint (Seg.cells (b, n)) (Seg.cells (c, m))) :
    Freeable M s' c m where
  pos := hc.pos
  inside := hc.inside
  taken := by
    rw [hs.free]
    exact hc.taken.union_left hd
  base := (hres c).trans hc.base

/-- **`ff_free_pages` coalesces.** The range joins the free pages, the free pages decide about the list
and the notes, and two ranges can be freed in either order. -/
theorem ffFreePages_coalesces (h : WellFormed M s) (hf : Freeable M s b n) :
    ∃ s', Freed M s b n s' ∧ (∀ t, WellFormed M t → t.free = s'.free → SameRuns M s' t) ∧
      ∀ c m, Freeable M s c m → Disjoint (Seg.cells (b, n)) (Seg.cells (c, m)) →
        ∃ t u u', Freed M s c m t ∧ Freed M s' c m u ∧ Freed M t b n u' ∧ SameRuns M u u' ∧
          SameReserved u.mem u'.mem := by
  obtain ⟨s', hs, hres⟩ := h.freed hf
  refine ⟨s', hs, fun t ht he => hs.wellFormed.sameRuns ht he.symm, fun c m hc hd => ?_⟩
  obtain ⟨t, ht, hres'⟩ := h.freed hc
  obtain ⟨u, hu, huRes⟩ := hs.wellFormed.freed (hc.after hs hres hd)
  obtain ⟨u', hu', huRes'⟩ := ht.wellFormed.freed (hf.after ht hres' hd.symm)
  refine ⟨t, u, u', ht, hu, hu', hu.wellFormed.sameRuns hu'.wellFormed ?_, fun i => ?_⟩
  · rw [hu.free, hs.free, hu'.free, ht.free, Set.union_right_comm]
  · rw [huRes' i, hres' i, huRes i, hres i]

/-- Four managed pages. -/
def phyMem4 : PhyMem := ⟨0x200000, 4, PhyMem.aligned_2M, PhyMem.kernel_2M, by decide, by decide⟩

/-- Page `1`, between two runs. -/
theorem ffFreePages_coalesces_between : ∃ s s' : FfMm, WellFormed phyMem4 s ∧
    s.free = {0, 2, 3} ∧ Freeable phyMem4 s 1 1 ∧ Freed phyMem4 s 1 1 s' := by
  have hl : Separated [(0, 1), (2, 2)] := ⟨by decide, by decide⟩
  obtain ⟨s, hs, hres⟩ := exists_state phyMem4 hl (by decide)
  have hfree : s.free = {0, 2, 3} := by
    rw [hs.free_eq]
    ext i
    show i ∈ [0, 2, 3] ↔ _
    simp
  have hf : Freeable phyMem4 s 1 1 := by
    refine ⟨by decide, by decide, ?_, hres 1⟩
    rw [hfree, Set.disjoint_left]
    rintro i hi h1
    rw [Seg.mem_cells] at h1
    obtain rfl : i = 1 := by omega
    simp at hi
  obtain ⟨s', hs', -⟩ := ffFreePages_coalesces hs.wellFormed hf
  exact ⟨s, s', hs.wellFormed, hfree, hf, hs'⟩

/-! ## `ff_alloc_pages` -/

/-- What First Fit should do: the first `n` pages of the lowest run that has `n`, and nothing if there
is none. -/
structure FindsFirstFit (M : PhyMem) (s : FfMm) (n : Nat) : Prop where
  fits : (∃ r, IsRun s.free r ∧ n ≤ r.2) → ∃ r s', IsRun s.free r ∧ n ≤ r.2 ∧
    (∀ r', IsRun s.free r' → n ≤ r'.2 → r.1 ≤ r'.1) ∧
    ffAllocPages M.start s n = .ok (s', M.addr r.1) ∧ WellFormed M s' ∧
    s'.free = s.free \ Seg.cells (r.1, n)
  none : (¬ ∃ r, IsRun s.free r ∧ n ≤ r.2) → ffAllocPages M.start s n = .ok (s, 0)

/-- The lowest run has `n` pages. -/
def LowestFits (s : FfMm) (n : Nat) : Prop :=
  ∃ r, IsRun s.free r ∧ n ≤ r.2 ∧ ∀ r', IsRun s.free r' → r.1 ≤ r'.1

theorem Rep.lowest_first {r : Seg} (h : Rep M s (r :: l)) {r' : Seg} (hr' : IsRun s.free r') :
    r.1 ≤ r'.1 := by
  rcases List.mem_cons.1 (h.isRun_iff.1 hr') with rfl | hm
  · exact le_rfl
  · exact ((List.pairwise_cons.1 h.runs.increasing).1 r' hm).le

theorem cellSet_takeFront {r : Seg} (h : Separated (r :: l)) (hle : n ≤ r.2) :
    cellSet (takeFront r n l) = cellSet (r :: l) \ Seg.cells (r.1, n) := by
  have hnd := h.nodup
  rw [takeFront_cells hle] at hnd
  ext i
  simp only [cellSet, takeFront_cells hle, List.mem_append, Seg.mem_pages, Set.mem_sdiff,
    Set.mem_ofPred_eq]
  refine ⟨fun hi => ⟨Or.inr hi, fun hc => ?_⟩, fun ⟨hi, hc⟩ => hi.resolve_left hc⟩
  exact (List.disjoint_of_nodup_append hnd) (Seg.mem_pages.2 hc) hi

/-- **`ff_alloc_pages` finds the first fit if it is the lowest run, or there are fewer than `n` free
pages.** -/
theorem findsFirstFit_iff (h : WellFormed M s) (hn : 0 < n) :
    FindsFirstFit M s n ↔ s.phyPageNowCount < n ∨ LowestFits s n := by
  obtain ⟨l, hl⟩ := h.exists_rep
  have hshort : s.phyPageNowCount < n → ffAllocPages M.start s n = .ok (s, 0) := fun hlt => by
    rw [ffAllocPages, if_pos (Or.inr hlt)]
  have hfit {r : Seg} (hr : IsRun s.free r) : r.2 ≤ s.phyPageNowCount := by
    rw [hl.now, ← hl.runs.headLen_eq (hl.isRun_iff.1 hr)]
    exact headLen_le_total l r.1
  constructor
  · intro hff
    by_contra hno
    obtain ⟨hcount, hlow⟩ := not_or.1 hno
    cases l with
    | nil => exact hcount (by rw [hl.now]; exact hn)
    | cons r l =>
      have hr : IsRun s.free r := hl.isRun_iff.2 List.mem_cons_self
      have hlt : r.2 < n := by
        by_contra hle
        exact hlow ⟨r, hr, Nat.le_of_not_lt hle, fun r' => hl.lowest_first⟩
      -- the first page of the lowest run comes back all the same
      have hff1 : firstFits s n = false := by
        rw [Bool.eq_false_iff, ne_eq, firstFits_iff hl, ← hl.now]
        omega
      obtain ⟨s', hs', -⟩ := ffAllocPages_short hl hff1
      by_cases hex : ∃ r', IsRun s.free r' ∧ n ≤ r'.2
      · obtain ⟨r', t, hr', hle, -, ht, -⟩ := hff.fits hex
        rw [hs', Except.ok.injEq, Prod.mk.injEq] at ht
        have hhead : r.1 = r'.1 := M.addr_injective ht.2
        have heq : r = r' := hr.eq_of_mem hr' hr.first_mem (hhead ▸ hr'.first_mem)
        rw [heq] at hlt
        omega
      · have ht := hff.none hex
        rw [hs', Except.ok.injEq, Prod.mk.injEq] at ht
        exact M.addr_ne_zero _ ht.2
  · rintro (hlt | ⟨r, hr, hle, hlow⟩)
    · refine ⟨fun hex => ?_, fun _ => hshort hlt⟩
      obtain ⟨r, hr, hle⟩ := hex
      have := hfit hr
      omega
    · refine ⟨fun _ => ?_, fun hno => absurd ⟨r, hr, hle⟩ hno⟩
      cases l with
      | nil => exact absurd (hl.isRun_iff.1 hr) List.not_mem_nil
      | cons q l =>
        have hq : IsRun s.free q := hl.isRun_iff.2 List.mem_cons_self
        obtain rfl : q = r := by
          have hhead := le_antisymm (hl.lowest_first hr) (hlow q hq)
          exact hq.eq_of_mem hr hq.first_mem (hhead ▸ hr.first_mem)
        obtain ⟨s', hs', hl', -⟩ := ffAllocPages_first hl hn hle
        refine ⟨q, s', hr, hle, fun r' hr' _ => hlow r' hr', hs', hl'.wellFormed, ?_⟩
        rw [hl'.free_eq, hl.free_eq, cellSet_takeFront hl.runs hle]

/-- Two pages, when the lower of two runs has just these. -/
theorem findsFirstFit_iff_lowest : ∃ s, WellFormed phyMem4 s ∧ IsRun s.free (0, 2) ∧
    IsRun s.free (3, 1) ∧ FindsFirstFit phyMem4 s 2 := by
  have hl : Separated [(0, 2), (3, 1)] := ⟨by decide, by decide⟩
  obtain ⟨s, hs, -⟩ := exists_state phyMem4 hl (by decide)
  have hlow : IsRun s.free (0, 2) := hs.isRun_iff.2 (by decide)
  exact ⟨s, hs.wellFormed, hlow, hs.isRun_iff.2 (by decide),
    (findsFirstFit_iff hs.wellFormed Nat.two_pos).2
      (Or.inr ⟨_, hlow, le_rfl, fun _ _ => Nat.zero_le _⟩)⟩

/-- Two pages, when only the second of two runs has them. -/
theorem not_findsFirstFit :
    ¬ ∀ (M : PhyMem) (s : FfMm) (n : Nat), WellFormed M s → 0 < n → FindsFirstFit M s n := by
  intro h
  have hl : Separated [(0, 1), (2, 2)] := ⟨by decide, by decide⟩
  obtain ⟨s, hs, -⟩ := exists_state phyMem4 hl (by decide)
  have hr : IsRun s.free (2, 2) := hs.isRun_iff.2 (by decide)
  obtain ⟨r, s', hr', hle, -, hcall, -⟩ := (h phyMem4 s 2 hs.wellFormed (by decide)).fits
    ⟨_, hr, le_rfl⟩
  obtain ⟨t, ht, -⟩ := ffAllocPages_short (n := 2) hs (by
    rw [Bool.eq_false_iff, ne_eq, firstFits_iff hs]
    decide)
  rw [ht, Except.ok.injEq, Prod.mk.injEq] at hcall
  have hhead : 0 = r.1 := phyMem4.addr_injective hcall.2
  rcases List.mem_cons.1 (hs.isRun_iff.1 hr') with rfl | hm
  · exact absurd hle (by decide)
  · rw [List.mem_singleton] at hm
    rw [hm] at hhead
    exact absurd hhead (by decide)

end Hurlex.FirstFit
