import Hurlex.Mm.BuddyLists
import Mathlib.Data.List.Find

/-!
# The buddy manager's memory holds its free lists

`Rep M s fl`: the memory `s` holds the free lists `fl`, rings, counters and flags included. The
theorems say that each function of the manager does to the memory what its counterpart does to the
lists, and returns.
-/

namespace Hurlex.Buddy

open Lib

/-- The manager's memory `s` holds the free lists `fl`. -/
structure Rep (M : PhyMem) (s : BuddyMm) (fl : FreeLists) : Prop where
  ring : ∀ o ≤ maxOrder, LinkRing s.mem.links (.head o) ((fl o).map .entry)
  nr : ∀ o ≤ maxOrder, s.nrFree o = (fl o).length
  head : ∀ o ≤ maxOrder, ∀ i ∈ fl o,
    (s.mem.page (.entry i)).isOrder = true ∧ (s.mem.page (.entry i)).num = o
  flag : ∀ i < M.count, (s.mem.page (.entry i)).isOrder = true → ∃ o ≤ maxOrder, i ∈ fl o
  base : s.pagesBase = 0
  count : s.phyPageCount = M.count
  word : s.phyPageNowCount < 2 ^ 32

/-- The rings, the counters and the first pages of the free lists `fl`. -/
structure Linked (s : BuddyMm) (fl : FreeLists) : Prop where
  ring : ∀ o ≤ maxOrder, LinkRing s.mem.links (.head o) ((fl o).map .entry)
  nr : ∀ o ≤ maxOrder, s.nrFree o = (fl o).length
  head : ∀ o ≤ maxOrder, ∀ i ∈ fl o,
    (s.mem.page (.entry i)).isOrder = true ∧ (s.mem.page (.entry i)).num = o

variable {M : PhyMem} {s : BuddyMm} {fl : FreeLists} {i o : Nat}

theorem Rep.linked (h : Rep M s fl) : Linked s fl := ⟨h.ring, h.nr, h.head⟩

/-- A page heads one block at most. -/
theorem Linked.order_unique (h : Linked s fl) {o' : Nat} (ho : o ≤ maxOrder) (ho' : o' ≤ maxOrder)
    (hi : i ∈ fl o) (hi' : i ∈ fl o') : o = o' :=
  (h.head o ho i hi).2.symm.trans (h.head o' ho' i hi').2

/-- Two lists share no node. -/
theorem Linked.apart (h : Linked s fl) {o' : Nat} (ho : o ≤ maxOrder) (ho' : o' ≤ maxOrder)
    (hne : o' ≠ o) : ∀ y ∈ (Node.head o' : PageNode) :: (fl o').map .entry,
      y ∉ (Node.head o : PageNode) :: (fl o).map .entry := by
  intro y hy hy'
  rcases List.mem_cons.mp hy with rfl | hy
  · rcases List.mem_cons.mp hy' with e | hy'
    · exact hne (Node.head.inj e)
    · obtain ⟨j, -, e⟩ := List.mem_map.mp hy'
      cases e
  · obtain ⟨j, hj, rfl⟩ := List.mem_map.mp hy
    rcases List.mem_cons.mp hy' with e | hy'
    · cases e
    · obtain ⟨j', hj', e⟩ := List.mem_map.mp hy'
      cases e
      exact hne (h.order_unique ho' ho hj hj')

theorem Rep.order_unique (h : Rep M s fl) {o' : Nat} (ho : o ≤ maxOrder) (ho' : o' ≤ maxOrder)
    (hi : i ∈ fl o) (hi' : i ∈ fl o') : o = o' :=
  h.linked.order_unique ho ho' hi hi'

theorem Rep.apart (h : Rep M s fl) {o' : Nat} (ho : o ≤ maxOrder) (ho' : o' ≤ maxOrder)
    (hne : o' ≠ o) : ∀ y ∈ (Node.head o' : PageNode) :: (fl o').map .entry,
      y ∉ (Node.head o : PageNode) :: (fl o).map .entry :=
  h.linked.apart ho ho' hne

theorem Rep.nodup (h : Rep M s fl) (ho : o ≤ maxOrder) : (fl o).Nodup :=
  List.Nodup.of_map _ (List.nodup_cons.mp (h.ring o ho).nodup).2

/-- What `putBlock` does to the descriptor of its page. -/
theorem putBlock_page_self (s : BuddyMm) (i o : Nat) : (putBlock s i o).mem.page (.entry i) =
    ((s.mem.page (.entry i)).setNum o).setFlag pgOrder := by
  simp [putBlock, PageMem.modify]

theorem putBlock_page_ne {j : Nat} (hj : j ≠ i) :
    (putBlock s i o).mem.page (.entry j) = s.mem.page (.entry j) := by
  have hne : (Node.entry j : PageNode) ≠ .entry i := fun e => hj (Node.entry.inj e)
  exact (PageMem.modify_of_ne _ hne _).trans (PageMem.modify_of_ne _ hne _)

/-- A block that heads none yet goes to the front of its list. -/
theorem Linked.put (h : Linked s fl) (ho : o ≤ maxOrder) (hi : ∀ o' ≤ maxOrder, i ∉ fl o') :
    Linked (putBlock s i o) (put fl i o) := by
  have hentry : ∀ o' ≤ maxOrder,
      (Node.entry i : PageNode) ∉ (Node.head o' : PageNode) :: (fl o').map .entry := by
    intro o' ho' hm
    rcases List.mem_cons.mp hm with e | hm
    · cases e
    · obtain ⟨j, hj, e⟩ := List.mem_map.mp hm
      cases e
      exact hi o' ho' hj
  refine ⟨fun o' ho' => ?_, fun o' ho' => ?_, fun o' ho' j hj => ?_⟩
  · by_cases hoo : o' = o
    · subst hoo
      rw [put_self]
      exact listAdd_ring (h.ring o' ho') (hentry o' ho')
    · rw [put_of_ne fl i hoo]
      exact listAdd_frame (h.ring o ho) (h.ring o' ho') (hentry o' ho') (h.apart ho ho' hoo)
  · by_cases hoo : o' = o
    · subst hoo
      simp [putBlock, Buddy.put, h.nr o' ho']
    · simp only [putBlock, Buddy.put, Function.update_of_ne hoo, h.nr o' ho']
  · have hold : j ∈ fl o' → ((putBlock s i o).mem.page (.entry j)).isOrder = true ∧
        ((putBlock s i o).mem.page (.entry j)).num = o' := by
      intro hmem
      have hji : j ≠ i := by
        rintro rfl
        exact hi o' ho' hmem
      rw [putBlock_page_ne hji]
      exact h.head o' ho' j hmem
    by_cases hoo : o' = o
    · subst hoo
      rw [put_self] at hj
      rcases List.mem_cons.mp hj with rfl | hj
      · rw [putBlock_page_self]
        simp
      · exact hold hj
    · rw [put_of_ne fl i hoo] at hj
      exact hold hj

/-- A block that heads none yet goes to the front of its list. -/
theorem putBlock_rep (h : Rep M s fl) (ho : o ≤ maxOrder) (hi : ∀ o' ≤ maxOrder, i ∉ fl o') :
    Rep M (putBlock s i o) (put fl i o) := by
  obtain ⟨hring, hnr, hhead⟩ := h.linked.put ho hi
  refine ⟨hring, hnr, hhead, fun j hj hf => ?_, h.base, h.count, h.word⟩
  by_cases hji : j = i
  · subst hji
    exact ⟨o, ho, mem_put_self fl j o⟩
  · rw [putBlock_page_ne hji] at hf
    obtain ⟨o', ho', hj'⟩ := h.flag j hj hf
    exact ⟨o', ho', mem_put hj'⟩

/-- A block leaves its list. -/
theorem unlinkBlock_rep (h : Rep M s fl) (ho : o ≤ maxOrder) (hi : i ∈ fl o) :
    Rep M (clearOrderFlag (unlinkBlock s i o) i) (drop fl i o) := by
  obtain ⟨xs, ys, hxy⟩ := List.append_of_mem hi
  have hring := h.ring o ho
  have hnd := h.nodup ho
  have herase : (fl o).erase i = xs ++ ys := by
    rw [hxy, List.nodup_append] at hnd
    rw [hxy, List.erase_append_right _ fun hm => hnd.2.2 i hm i List.mem_cons_self rfl,
      List.erase_cons_head]
  have hmem : ∀ o' ≤ maxOrder, ∀ j, j ∈ drop fl i o o' ↔ j ∈ fl o' ∧ j ≠ i := by
    intro o' ho' j
    by_cases hoo : o' = o
    · subst hoo
      rw [drop, Function.update_self, hnd.mem_erase_iff, and_comm]
    · rw [drop, Function.update_of_ne hoo]
      refine ⟨fun hj => ⟨hj, fun e => hoo ?_⟩, fun hj => hj.1⟩
      exact h.order_unique ho' ho (e ▸ hj) hi
  have hpage : ∀ j, j ≠ i →
      (clearOrderFlag (unlinkBlock s i o) i).mem.page (.entry j) = s.mem.page (.entry j) := by
    intro j hj
    have hne : (Node.entry j : PageNode) ≠ .entry i := fun e => hj (Node.entry.inj e)
    exact PageMem.modify_of_ne _ hne _
  rw [hxy, List.map_append, List.map_cons] at hring
  refine ⟨fun o' ho' => ?_, fun o' ho' => ?_, fun o' ho' j hj => ?_, fun j hj hf => ?_, h.base,
    h.count, h.word⟩
  · by_cases hoo : o' = o
    · subst hoo
      rw [drop, Function.update_self, herase, List.map_append]
      exact listDel_ring hring
    · rw [drop, Function.update_of_ne hoo]
      refine listDel_frame hring (h.ring o' ho') fun y hy hm => h.apart ho ho' hoo y hy ?_
      rw [hxy, List.map_append, List.map_cons]
      simp only [List.mem_cons, List.mem_append] at hm ⊢
      tauto
  · by_cases hoo : o' = o
    · subst hoo
      have hlen : (fl o').length = (xs ++ ys).length + 1 := by
        rw [hxy]
        simp only [List.length_append, List.length_cons]
        omega
      simp only [clearOrderFlag, unlinkBlock, drop, Function.update_self, herase, h.nr o' ho', hlen]
      omega
    · simp only [clearOrderFlag, unlinkBlock, drop, Function.update_of_ne hoo, h.nr o' ho']
  · obtain ⟨hj1, hj2⟩ := (hmem o' ho' j).mp hj
    rw [hpage j hj2]
    exact h.head o' ho' j hj1
  · have hji : j ≠ i := by
      rintro rfl
      simp [clearOrderFlag, PageMem.modify] at hf
    rw [hpage j hji] at hf
    obtain ⟨o', ho', hj'⟩ := h.flag j hj hf
    exact ⟨o', ho', (hmem o' ho' j).mpr ⟨hj', hji⟩⟩

/-! ## `buddy_free_pages` -/

/-- A page outside the blocks heads none. -/
theorem notMem_of_fits {N : Nat} {l : List Seg} {n : Nat} (hn : 0 < n)
    (h : Fits N ((i, n) :: (blocks fl ++ l))) : ∀ o ≤ maxOrder, i ∉ fl o := by
  intro o ho hi
  have h1 := h i
  have h2 := cover_head ho hi
  rw [cover_cons, cover_append, if_pos ⟨le_rfl, Nat.lt_add_of_pos_right hn⟩] at h1
  split_ifs at h1 <;> omega

theorem pageIsBuddy_iff (h : Rep M s fl) (ho : o ≤ maxOrder) (hi : i < 2 ^ 32) :
    pageIsBuddy s (idxToPage s i) o = true ↔ i < M.count ∧ i ∈ fl o := by
  have hidx : pageToIdx s (idxToPage s i) = i := by
    rw [pageToIdx, idxToPage, h.base, Nat.zero_add, u32Sub_of_le hi (Nat.zero_le _), Nat.sub_zero]
  unfold pageIsBuddy
  rw [hidx, h.count, idxToPage, h.base, Nat.zero_add]
  by_cases hlt : i < M.count
  · rw [if_pos hlt, Bool.and_eq_true, decide_eq_true_iff]
    constructor
    · rintro ⟨hf, hn⟩
      obtain ⟨o', ho', hi'⟩ := h.flag i hlt hf
      have := (h.head o' ho' i hi').2
      exact ⟨hlt, by rwa [← hn, this]⟩
    · rintro ⟨-, hi'⟩
      exact h.head o ho i hi'
  · rw [if_neg hlt]
    simp [hlt]

theorem buddy_lt (hi : i ≤ M.count) (ho : o ≤ maxOrder) : buddy i o < 2 ^ 32 := by
  have hp := size_le ho
  have hm : 2 ^ maxOrder = 1024 := rfl
  have hpos := Nat.two_pow_pos o
  have hlt := M.count_lt
  rcases mergeBase_cases i o with ⟨-, hb⟩ | ⟨-, hb⟩ <;> omega

theorem mergeBase_le (i o : Nat) : mergeBase i o ≤ i := by
  have hpos := Nat.two_pow_pos o
  rcases mergeBase_cases i o with ⟨hm, -⟩ | ⟨hm, hb⟩ <;> omega

theorem coalesce_pos {k : Nat} (h : pageIsBuddy s (idxToPage s (buddy i o)) o = true) :
    coalesce s i o (k + 1) = coalesce (clearOrderFlag (unlinkBlock s (idxToPage s (buddy i o)) o)
      (idxToPage s (buddy i o))) (mergeBase i o) (o + 1) k :=
  if_pos h

theorem coalesce_neg {k : Nat} (h : ¬ pageIsBuddy s (idxToPage s (buddy i o)) o = true) :
    coalesce s i o (k + 1) = (s, i, o) :=
  if_neg h

/-- The merging loop does to the memory what `merge` does to the lists. -/
theorem coalesce_rep (k : Nat) : ∀ {s : BuddyMm} {fl : FreeLists} {i o : Nat}, Rep M s fl →
    o + k ≤ maxOrder → i ≤ M.count →
    Rep M (coalesce s i o k).1 (merge M.count fl i o k).1 ∧
      (coalesce s i o k).2 = (merge M.count fl i o k).2 ∧
      (coalesce s i o k).1.phyPageNowCount = s.phyPageNowCount := by
  induction k with
  | zero => exact fun h _ _ => ⟨h, rfl, rfl⟩
  | succ k ih =>
    intro s fl i o h hk hi
    have ho : o ≤ maxOrder := by omega
    have hiff := pageIsBuddy_iff h ho (buddy_lt hi ho)
    have hpage : idxToPage s (buddy i o) = buddy i o := by
      rw [idxToPage, h.base, Nat.zero_add]
    by_cases hb : buddy i o < M.count ∧ buddy i o ∈ fl o
    · rw [coalesce_pos (hiff.mpr hb), merge_pos hb, hpage]
      have hle := mergeBase_le i o
      exact ih (unlinkBlock_rep h ho hb.2) (by omega) (by omega)
    · rw [coalesce_neg (mt hiff.mp hb), merge_neg hb]
      exact ⟨h, rfl, rfl⟩

theorem clearRefs_rep (h : Rep M s fl) (b n : Nat) : Rep M (clearRefs s b n) fl := by
  have key : ∀ (ps : List Nat) (mem : PageMem Nat),
      (ps.foldl (fun mem p => mem.modify (.entry p) (Page.setRef 0)) mem).links = mem.links ∧
      ∀ j, ((ps.foldl (fun mem p => mem.modify (.entry p) (Page.setRef 0)) mem).page j).isOrder =
          (mem.page j).isOrder ∧
        ((ps.foldl (fun mem p => mem.modify (.entry p) (Page.setRef 0)) mem).page j).num =
          (mem.page j).num := by
    intro ps
    induction ps with
    | nil => exact fun mem => ⟨rfl, fun j => ⟨rfl, rfl⟩⟩
    | cons p ps ih =>
      intro mem
      obtain ⟨h1, h2⟩ := ih (mem.modify (.entry p) (Page.setRef 0))
      refine ⟨h1, fun j => ?_⟩
      obtain ⟨h3, h4⟩ := h2 j
      rw [List.foldl_cons, h3, h4]
      by_cases hj : j = .entry p
      · subst hj
        rw [PageMem.modify_self]
        simp
      · rw [PageMem.modify_of_ne _ hj]
        exact ⟨rfl, rfl⟩
  obtain ⟨h1, h2⟩ := key (List.range' b n) s.mem
  refine ⟨fun o ho => ?_, h.nr, fun o ho j hj => ?_, fun j hj hf => ?_, h.base, h.count,
    h.word⟩
  · exact h1 ▸ h.ring o ho
  · obtain ⟨h3, h4⟩ := h2 (.entry j)
    exact ⟨h3.trans (h.head o ho j hj).1, h4.trans (h.head o ho j hj).2⟩
  · exact h.flag j hj ((h2 (.entry j)).1.symm.trans hf)

/-- **`buddy_free_pages_sub` of pages that are not free.** -/
theorem buddyFreePagesSub_rep (h : Rep M s fl) (ho : o ≤ maxOrder)
    (hfit : Fits M.count ((i, 2 ^ o) :: blocks fl)) :
    Rep M (buddyFreePagesSub s i o) (freeSub M.count fl i o) ∧
      (buddyFreePagesSub s i o).phyPageNowCount = s.phyPageNowCount := by
  have hin := hfit.bound List.mem_cons_self (Nat.two_pow_pos o)
  have hlt := M.count_lt
  have hpos := Nat.two_pow_pos o
  simp only at hin
  have hidx : pageToIdx s i = i := by
    rw [pageToIdx, h.base, u32Sub_of_le (by omega) (Nat.zero_le _), Nat.sub_zero]
  obtain ⟨h1, h2, h3⟩ := coalesce_rep (maxOrder - o) (clearRefs_rep h i (2 ^ o))
    (by omega : o + (maxOrder - o) ≤ maxOrder) (by omega : i ≤ M.count)
  have hm := fun p => merge_cover (N := M.count) p (maxOrder - o) fl i o (by omega)
  have hmo := (hm 0).2
  have hnew : ∀ o' ≤ maxOrder, (merge M.count fl i o (maxOrder - o)).2.1 ∉
      (merge M.count fl i o (maxOrder - o)).1 o' := by
    have hfit' : Fits M.count (((merge M.count fl i o (maxOrder - o)).2.1,
        2 ^ (merge M.count fl i o (maxOrder - o)).2.2) ::
          (blocks (merge M.count fl i o (maxOrder - o)).1 ++ [])) := by
      intro p
      rw [List.append_nil, (hm p).1]
      exact hfit p
    exact notMem_of_fits (Nat.two_pow_pos _) hfit'
  unfold buddyFreePagesSub freeSub
  rw [hidx]
  simp only
  rw [h2, idxToPage, h1.base, Nat.zero_add]
  exact ⟨putBlock_rep h1 (by omega) hnew, h3⟩

/-- The bits of the size, from the lowest. -/
theorem freeLoop_rep : ∀ (k : Nat) {s : BuddyMm} {fl : FreeLists} {i n o : Nat}, Rep M s fl →
    2 ^ o ∣ n → n < 2 ^ (maxOrder + 1) → n < 2 ^ (o + k) →
    Fits M.count ((i, n) :: blocks fl) →
    ∃ s', freeLoop (k + 1) s i n o (2 ^ o) = .ok s' ∧
      Rep M s' (freePages M.count (k + 1) fl i n o) ∧ s'.phyPageNowCount = s.phyPageNowCount
  | k, s, fl, i, n, o, h, hd, hn, hk, hfit => by
    unfold freeLoop freePages
    by_cases hle : n ≥ 2 ^ o
    · have ho : o ≤ maxOrder := Nat.lt_succ_iff.mp (lt_of_two_pow_le hle hn)
      obtain ⟨k, rfl⟩ : ∃ j, k = j + 1 := by
        have := lt_of_two_pow_le hle hk
        exact ⟨k - 1, by omega⟩
      have hk' : o + 1 + k = o + (k + 1) := by omega
      have h2o : 2 ^ o * 2 = 2 ^ (o + 1) := (pow_succ 2 o).symm
      rw [if_pos hle, if_pos hle, h2o]
      by_cases hbit : n &&& 2 ^ o ≠ 0
      · rw [if_pos hbit, if_pos hbit]
        have hfit2 := hfit.cut hle
        obtain ⟨h1, h2⟩ := buddyFreePagesSub_rep h ho hfit2.tail
        have hfit3 : Fits M.count ((i + 2 ^ o, n - 2 ^ o) :: blocks (freeSub M.count fl i o)) := by
          intro p
          have := hfit2 p
          rw [cover_cons] at this ⊢
          rwa [freeSub_cover ho]
        obtain ⟨s', h3, h4, h5⟩ := freeLoop_rep k h1 (dvd_sub_of_and hd hbit) (by omega)
          (by rw [hk']; omega) hfit3
        exact ⟨s', h3, h4, h5.trans h2⟩
      · rw [if_neg hbit, if_neg hbit]
        exact freeLoop_rep k h (dvd_of_and hd (not_not.mp hbit)) hn (by rw [hk']; exact hk) hfit
    · rw [if_neg hle, if_neg hle]
      exact ⟨s, rfl, h, rfl⟩

/-- **`buddy_free_pages` of pages that are not free.** -/
theorem buddyFreePages_rep {n : Nat} (h : Rep M s fl) (hn : 0 < n) (hn' : n < 2 ^ (maxOrder + 1))
    (hfit : Fits M.count ((i, n) :: blocks fl)) :
    ∃ s', buddyFreePages M.start s (M.addr i) n = .ok s' ∧
      Rep M s' (freePages M.count 32 fl i n 0) ∧
      s'.phyPageNowCount = u32 (s.phyPageNowCount + n) := by
  have hin := hfit.bound List.mem_cons_self hn
  have h' : Rep M { s with phyPageNowCount := u32 (s.phyPageNowCount + n) } fl :=
    ⟨h.ring, h.nr, h.head, h.flag, h.base, h.count, Nat.mod_lt _ (by decide)⟩
  obtain ⟨s', h1, h2, h3⟩ := freeLoop_rep 31 h' (by simp : 2 ^ 0 ∣ n) hn'
    (hn'.trans (Nat.pow_lt_pow_right (by decide) (by decide))) hfit
  refine ⟨s', ?_, h2, h3⟩
  unfold buddyFreePages
  rw [if_neg (by omega), M.addrToPage_eq (by simp only at hin; omega)]
  exact h1

/-! ## `buddy_alloc_pages` -/

theorem clear_putBlock {q : Nat} (hq : q ≠ i) :
    clearOrderFlag (putBlock s q o) i = putBlock (clearOrderFlag s i) q o := by
  have hne : (Node.entry i : PageNode) ≠ .entry q := fun e => hq (Node.entry.inj e).symm
  simp only [clearOrderFlag, putBlock, PageMem.modify, Function.update_self, Function.update_idem,
    Function.update_of_ne hne, Function.update_of_ne hne.symm, Function.update_comm hne]

/-- The block's flag may be cleared before it is split. -/
theorem clear_splitDown (i o : Nat) : ∀ (k : Nat) (s : BuddyMm),
    clearOrderFlag (splitDown s i o k) i = splitDown (clearOrderFlag s i) i o k
  | 0, _ => rfl
  | k + 1, s => by
    have hne : i + 2 ^ (o + k) ≠ i := by
      have := Nat.two_pow_pos (o + k)
      omega
    rw [splitDown, splitDown, clear_splitDown i o k, clear_putBlock hne]

theorem splitDown_rep : ∀ (k : Nat) {s : BuddyMm} {fl : FreeLists}, Rep M s fl →
    o + k ≤ maxOrder + 1 → Fits M.count ((i, 2 ^ (o + k)) :: blocks fl) →
    Rep M (splitDown s i o k) (split fl i o k) ∧
      (splitDown s i o k).phyPageNowCount = s.phyPageNowCount
  | 0, _, _, h, _, _ => ⟨h, rfl⟩
  | k + 1, s, fl, h, hk, hfit => by
    have h2o : 2 ^ (o + (k + 1)) = 2 ^ (o + k) + 2 ^ (o + k) := by
      rw [← Nat.add_assoc, pow_succ]
      omega
    have hpos := Nat.two_pow_pos (o + k)
    have hnew : ∀ o' ≤ maxOrder, i + 2 ^ (o + k) ∉ fl o' := by
      intro o' ho' hm
      refine hfit.notMem (block_mem ho' hm) (block_first_mem _ o') ?_
      rw [Seg.mem_cells, h2o]
      simp only
      omega
    have hput := putBlock_rep h (by omega : o + k ≤ maxOrder) hnew
    obtain ⟨h1, h2⟩ := splitDown_rep k hput (by omega) fun p => by
      rw [cover_cons, cover_put (by omega : o + k ≤ maxOrder), cover_cons]
      have := hfit p
      rw [← Nat.add_assoc, cover_halves, cover_cons, cover_cons] at this
      omega
    exact ⟨h1, h2⟩

theorem findOrder_rep (h : Rep M s fl) : findOrder s o = pick fl o := by
  unfold findOrder pick
  refine List.find?_congr fun c hc => ?_
  have hco : c ≤ maxOrder := by
    have := List.mem_range'_1.mp hc
    omega
  have hiff := listEmpty_iff (h.ring c hco)
  rw [List.map_eq_nil_iff] at hiff
  cases hfl : fl c with
  | nil => simp [hiff.mpr hfl]
  | cons j js =>
    have : listEmpty s.mem.links (.head c) = false := by
      rw [Bool.eq_false_iff, ne_eq, hiff, hfl]
      simp
    simp [this]

theorem buddyAllocPagesSub_none (h : Rep M s fl) (ho : o ≤ maxOrder)
    (ha : allocSub fl o = none) : buddyAllocPagesSub s o = .ok (s, none) := by
  unfold buddyAllocPagesSub kassert
  rw [decide_eq_true ho, findOrder_rep h, allocSub_none_iff.mp ha]
  rfl

theorem buddyAllocPagesSub_some {fl' : FreeLists} (h : Rep M s fl) (ho : o ≤ maxOrder)
    (hfit : Fits M.count (blocks fl)) (ha : allocSub fl o = some (fl', i)) :
    ∃ s', buddyAllocPagesSub s o = .ok (s', some i) ∧ Rep M s' fl' ∧
      s'.phyPageNowCount = s.phyPageNowCount := by
  obtain ⟨c, is, hp, hc, rfl⟩ := allocSub_some ha
  obtain ⟨hoc, hco, -⟩ := pick_some hp
  have hmem : i ∈ fl c := hc ▸ List.mem_cons_self
  have hnext : s.mem.links.next (.head c) = .entry i := by
    have := (h.ring c hco).next_head
    rw [hc] at this
    simpa using this.symm
  obtain ⟨h1, h2⟩ := splitDown_rep (o := o) (i := i) (c - o) (unlinkBlock_rep h hco hmem) (by omega)
    fun p => by
      rw [Nat.add_sub_cancel' hoc, ← cover_drop hco hmem]
      exact hfit p
  refine ⟨_, ?_, h1, h2⟩
  unfold buddyAllocPagesSub kassert
  rw [decide_eq_true ho, findOrder_rep h, hp]
  simp only [bind, Except.bind, if_true, hnext, clear_splitDown]

theorem getOrderLoop_eq {n : Nat} : ∀ (k o : Nat), o + k ≤ maxOrder → n ≤ 2 ^ (o + k) →
    getOrderLoop n (k + 1) o (2 ^ o) = .ok (orderFrom n o k)
  | 0, o, _, hn => if_pos hn
  | k + 1, o, hk, hn => by
    unfold getOrderLoop orderFrom
    by_cases hle : n ≤ 2 ^ o
    · rw [if_pos hle, if_pos hle]
    · have hlt : 2 ^ (o + 1) < 2 ^ 32 :=
        Nat.pow_lt_pow_right (by decide) (by have : maxOrder = 10 := rfl; omega)
      rw [if_neg hle, if_neg hle, ← pow_succ, u32_of_lt hlt]
      exact getOrderLoop_eq k (o + 1) (by omega) (by rwa [Nat.add_right_comm])

theorem getOrder_eq {n : Nat} (hn : n ≤ 2 ^ maxOrder) : getOrder n = .ok (orderOf n) :=
  getOrderLoop_eq maxOrder 0 (by simp) (by rwa [Nat.zero_add])

theorem buddyAllocPages_none {n : Nat} (h : Rep M s fl) (hn : n ≤ 2 ^ maxOrder)
    (ha : allocPages M.count fl n = none) : buddyAllocPages M.start s n = .ok (s, 0) := by
  unfold buddyAllocPages
  by_cases hz : n = 0 ∨ n > s.phyPageNowCount
  · rw [if_pos hz]
  · have hsub : allocSub fl (orderOf n) = none := by
      unfold allocPages at ha
      rwa [Option.map_eq_none_iff] at ha
    rw [if_neg hz, getOrder_eq hn]
    simp only [bind, Except.bind, buddyAllocPagesSub_none h (orderOf_le n) hsub]

/-- A request above the counter gets nothing. -/
theorem buddyAllocPages_short {start n : Nat} (s : BuddyMm) (hn : n > s.phyPageNowCount) :
    buddyAllocPages start s n = .ok (s, 0) := by
  unfold buddyAllocPages
  rw [if_pos (Or.inr hn)]

/-- The counter after an allocation of `n` pages: the tail is added, the `n` pages are taken off,
although they had not been taken off the block as a whole. -/
def countAfter (now n : Nat) : Nat := u32Sub (u32 (now + (2 ^ orderOf n - n))) n

/-- **`buddy_alloc_pages` does to the memory what `allocPages` does to the lists.** -/
theorem buddyAllocPages_some {fl' : FreeLists} {n : Nat} (h : Rep M s fl)
    (hfit : Fits M.count (blocks fl)) (hn : 0 < n) (hn' : n ≤ 2 ^ maxOrder)
    (hnow : n ≤ s.phyPageNowCount) (ha : allocPages M.count fl n = some (fl', i)) :
    ∃ s', buddyAllocPages M.start s n = .ok (s', M.addr i) ∧ Rep M s' fl' ∧
      s'.phyPageNowCount = countAfter s.phyPageNowCount n := by
  obtain ⟨fl₁, h1, rfl⟩ := allocPages_some ha
  obtain ⟨s₁, e1, r1, n1⟩ := buddyAllocPagesSub_some h (orderOf_le n) hfit h1
  have hle := le_orderOf hn'
  have hcover := allocSub_cover h1
  have hfit1 : Fits M.count ((i, 2 ^ orderOf n) :: blocks fl₁) := fun p => by
    rw [hcover]
    exact hfit p
  have hin := hfit1.bound List.mem_cons_self (Nat.two_pow_pos _)
  simp only at hin
  -- the tail
  obtain ⟨s₂, e2, r2, n2⟩ : ∃ s₂, freeTail M.start s₁ i n (2 ^ orderOf n) = .ok s₂ ∧
      Rep M s₂ (freePages M.count 32 fl₁ (i + n) (2 ^ orderOf n - n) 0) ∧
      s₂.phyPageNowCount = u32 (s.phyPageNowCount + (2 ^ orderOf n - n)) := by
    unfold freeTail
    by_cases htail : n = 2 ^ orderOf n
    · have hz : 2 ^ orderOf n - n = 0 := by omega
      refine ⟨s₁, if_neg (not_not.mpr htail), ?_, ?_⟩
      · rw [hz]
        exact r1
      · rw [hz, Nat.add_zero, u32_of_lt h.word, n1]
    · have hfit2 : Fits M.count ((i + n, 2 ^ orderOf n - n) :: blocks fl₁) := fun p => by
        have hf := hfit1.cut hle p
        simp only [cover_cons] at hf ⊢
        omega
      obtain ⟨s₂, e2, r2, n2⟩ := buddyFreePages_rep r1 (by omega) tail_lt hfit2
      refine ⟨s₂, ?_, r2, by rw [n2, n1]⟩
      rw [if_pos htail, M.pageToAddr_eq (by omega)]
      exact e2
  refine ⟨{ s₂ with phyPageNowCount := u32Sub s₂.phyPageNowCount n }, ?_,
    ⟨r2.ring, r2.nr, r2.head, r2.flag, r2.base, r2.count, Nat.mod_lt _ (by decide)⟩, ?_⟩
  · unfold buddyAllocPages
    rw [if_neg (by omega), getOrder_eq hn']
    simp only [bind, Except.bind, e1, e2, M.pageToAddr_eq (by omega : i ≤ M.count)]
    rfl
  · rw [countAfter, n2]

end Hurlex.Buddy
