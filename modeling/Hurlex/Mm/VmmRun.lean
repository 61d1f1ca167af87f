import Hurlex.Mm.VmmWindow

/-!
# `pgd_kern` after `vmm_init`

Runs of `map` and `unmap` (`arch/i386/mm/vmm.c`, lines 54 to 90) on `pgd_kern`, which is the current
directory, too. Between the calls the rest of the kernel writes to any page but `pgd_kern` and its
page tables. Every access goes through the tables themselves, so a run is one only as long as the
linear mapping shows them: `Kept`.

* `Run.invariant`: what a run keeps.
* **`getMapping_agrees_iff`**: when `get_mapping` tells what the MMU does (`vmm.h`, lines 162 to 170).

Out of scope: the page-fault handler, and translations the MMU remembers.
-/

namespace Hurlex.Vmm

open Lib

/-! ## Runs -/

/-- If the linear mapping shows `pgd_kern`, the page `k`, or one of its page tables at `va`, the word
`w` shows it there, too. -/
def Kept (m : Phys) (k va w : Word) : Prop :=
  ∀ x, (x = k ∨ ∃ i, (spaceAt m k).tables.dir i = some x) →
    paToKa x &&& pageMask = va &&& pageMask → w &&& pagePresent ≠ 0 ∧ w &&& pageMask = x

/-- The calls on `pgd_kern` since `vmm_init`, latest first, and the memory after them. A page that
becomes a page table is zero-filled. -/
inductive Run (pgdKern : Word) : List Op → Phys → Prop
  | boot {m₀ m m' : Phys} {kernEnd : Word} (h : Handover m₀ m pgdKern kernEnd)
      (hm : vmmInitAt m pgdTmp pgdKern kernEnd = some m') : Run pgdKern [] m'
  | map {ops : List Op} {m m' : Phys} {page va pa flags : Word} (h : Run pgdKern ops m)
      (hf : flags < 0x1000)
      (hp : m (kaToPa pgdKern) (pgdIndex va) &&& pageMask = 0 →
        SparePage m (kaToPa pgdKern) (kaToPa pgdKern) page ∧ ∀ j, m page j = 0)
      (hkeep : Kept m (kaToPa pgdKern) va ((pa &&& pageMask) ||| flags))
      (hm : mapAt m (kaToPa pgdKern) pgdKern page va pa flags = some m') :
      Run pgdKern (.map va pa flags :: ops) m'
  | unmap {ops : List Op} {m m' : Phys} {va : Word} (h : Run pgdKern ops m)
      (hkeep : Kept m (kaToPa pgdKern) va 0)
      (hm : unmapAt m (kaToPa pgdKern) pgdKern va = some m') : Run pgdKern (.unmap va :: ops) m'
  | other {ops : List Op} {m m' : Phys} (h : Run pgdKern ops m)
      (hdir : m' (kaToPa pgdKern) = m (kaToPa pgdKern))
      (htable : ∀ i f, (spaceAt m (kaToPa pgdKern)).tables.dir i = some f → m' f = m f) :
      Run pgdKern ops m'

section Steps

variable {m₀ m m' : Phys} {pgdKern kernEnd k va pa page flags f w : Word} {ops : List Op}
  {word : Word → Word} {i : Index}

/-! ## After `vmm_init` -/

/-- The linear mapping shows the first 16 MB. -/
theorem Handover.shown (h : Handover m₀ m pgdKern kernEnd) (hf : f &&& pageMask = f)
    (hlt : f.toNat < 2 ^ 24) :
    Shown (filled m (kaToPa pgdKern) kernEnd) (kaToPa pgdKern) f := by
  have hk : kernbase.toNat = 2 ^ 22 * 768 := rfl
  have hka : (paToKa f).toNat = f.toNat + 2 ^ 22 * 768 := by
    rw [paToKa, BitVec.toNat_add, hk]
    omega
  have hva : kernbase ≤ paToKa f ∧ paToKa f < kerntop := by
    rw [BitVec.le_def, BitVec.lt_def, hka, show kerntop.toNat = 2 ^ 22 * 992 from rfl, hk]
    omega
  have hwalk := (maps_filled h hva).frame
  rw [show paToKa f - kernbase = f from kaToPa_paToKa f, hf] at hwalk
  refine ⟨⟨hf, hwalk⟩, ?_⟩
  have hr := (mem_kern_iff _).1 hva
  rw [filled_pgd h, h.boot.frame_vmmInit, if_pos hr]
  exact (h.boot.isFrame (by omega) (by omega)).ne_zero

/-- No page table is `pgd_kern`. -/
theorem Handover.frame_ne (h : Handover m₀ m pgdKern kernEnd) (i : Index) :
    filled m (kaToPa pgdKern) kernEnd (kaToPa pgdKern) i &&& pageMask ≠ kaToPa pgdKern := by
  obtain ⟨h1, h2, h3, h4, h5⟩ := h.numbers
  have hi := i.isLt
  rw [filled_pgd h, h.boot.frame_vmmInit]
  intro hc
  have hn := congrArg BitVec.toNat hc
  split at hn
  · rw [h.boot.toNat_tableFrame (by omega)] at hn
    omega
  · have h0 : (0 : Word).toNat = 0 := rfl
    omega

theorem Handover.reached (h : Handover m₀ m pgdKern kernEnd) :
    Reached (filled m (kaToPa pgdKern) kernEnd) (kaToPa pgdKern) (kaToPa pgdKern) where
  dir := by
    obtain ⟨h1, h2, h3, h4, h5⟩ := h.numbers
    exact h.shown h.pgd_aligned (by omega)
  table i f hf := by
    obtain ⟨h1, h2, h3, h4, h5⟩ := h.numbers
    have hi := i.isLt
    obtain ⟨hf, hne⟩ := dir_eq_some.1 hf
    have hf : filled m (kaToPa pgdKern) kernEnd (kaToPa pgdKern) i &&& pageMask = f := hf
    rw [filled_pgd h, h.boot.frame_vmmInit] at hf
    split at hf
    · subst hf
      refine h.shown (h.boot.isFrame (by omega) (by omega)).aligned ?_
      rw [h.boot.toNat_tableFrame (by omega)]
      omega
    · exact absurd hf.symm hne
  not_own := h.frame_ne
  not_current := h.frame_ne
  not_theirs := h.frame_ne

theorem Handover.good (h : Handover m₀ m pgdKern kernEnd) :
    Good (spaceAt (filled m (kaToPa pgdKern) kernEnd) (kaToPa pgdKern)) kernWord :=
  h.boot.good.congr (funext (filled_pgd h)) fun va => by rw [slot_filled h, h.boot.slot_vmmInit]

/-! ## One step -/

/-- The word that shows a page is the one of its address, when no table is shared. -/
theorem Good.page_of_isWindow (h : Good (spaceAt m k) word) {x : Word}
    (h0 : m k (pgdIndex va) &&& pageMask ≠ 0)
    (hw : IsWindow m k x (m k (pgdIndex va) &&& pageMask) (pteIndex va)) :
    paToKa x &&& pageMask = va &&& pageMask := by
  have hx := dir_of_frame (m := m) (d := k) (i := pgdIndex (paToKa x)) (by rw [hw.1]; exact h0)
  rw [hw.1] at hx
  exact page_eq_iff.2 ⟨h.unshared hx (dir_of_frame h0), hw.2⟩

/-- A word that keeps the windows keeps the tables in reach. -/
theorem Reached.set_kept (hr : Reached m k k) (h : Good (spaceAt m k) word)
    (h0 : m k (pgdIndex va) &&& pageMask ≠ 0) (hkeep : Kept m k va w) :
    Reached (m.set (m k (pgdIndex va) &&& pageMask) (pteIndex va) w) k k :=
  hr.set fun x hx hw => hkeep x hx (h.page_of_isWindow h0 hw)

/-- `map` neither faults nor loses the tables. -/
theorem Good.mapAt (hr : Reached m k k) (h : Good (spaceAt m k) (installed ops))
    (hp : m k (pgdIndex va) &&& pageMask = 0 → SparePage m k k page ∧ ∀ j, m page j = 0)
    (hkeep : Kept m k va ((pa &&& pageMask) ||| flags)) :
    ∃ m', mapAt m k (paToKa k) page va pa flags = some m' ∧ Reached m' k k ∧
      Good (spaceAt m' k) (installed (.map va pa flags :: ops)) := by
  have hmap : Good (map (spaceAt m k) page va pa flags) (installed (.map va pa flags :: ops)) :=
    h.after_map fun hc => { toSpare := (hp hc).1.toSpare, zero := (hp hc).2 }
  by_cases h0 : m k (pgdIndex va) &&& pageMask = 0
  · obtain ⟨hp, -⟩ := hp h0
    refine ⟨_, hr.mapAt_new h0 hp, hr.set_new h0 hp, hmap.congr ?_ (hr.slot_set_new h0 hp)⟩
    rw [show map (spaceAt m k) page va pa flags = ((spaceAt m k).setPgd (pgdIndex va)
      (page ||| pagePresent ||| pageWrite)).setPte (paToKa page) (pteIndex va)
        ((pa &&& pageMask) ||| flags) from if_pos h0]
    simp only [spaceAt, Space.setPte, Space.setPgd]
    rw [Phys.set_of_page hp.ne_dir.symm, Phys.set, Function.update_self]
  · refine ⟨_, hr.mapAt_old h0, hr.set_kept h h0 hkeep, ?_⟩
    rw [hr.spaceAt_set]
    exact (if_neg h0 : map (spaceAt m k) page va pa flags = _) ▸ hmap

theorem Good.unmapAt (hr : Reached m k k) (h : Good (spaceAt m k) (installed ops))
    (hkeep : Kept m k va 0) :
    ∃ m', unmapAt m k (paToKa k) va = some m' ∧ Reached m' k k ∧
      Good (spaceAt m' k) (installed (.unmap va :: ops)) := by
  have hunmap : Good (unmap (spaceAt m k) va) (installed (.unmap va :: ops)) := h.after_unmap
  refine ⟨_, hr.unmapAt_eq, ?_⟩
  by_cases h0 : m k (pgdIndex va) &&& pageMask = 0
  · rw [if_pos h0]
    exact ⟨hr, (if_pos h0 : unmap (spaceAt m k) va = _) ▸ hunmap⟩
  · rw [if_neg h0]
    refine ⟨hr.set_kept h h0 hkeep, ?_⟩
    rw [hr.spaceAt_set]
    exact (if_neg h0 : unmap (spaceAt m k) va = _) ▸ hunmap

/-- Writes to other pages. -/
theorem Reached.other (h : Reached m k k) (hdir : m' k = m k)
    (htable : ∀ i f, (spaceAt m k).tables.dir i = some f → m' f = m f) : Reached m' k k := by
  have keep (x : Word) (hx : Shown m k x) : Shown m' k x := by
    obtain ⟨h1, h2, h3⟩ := walk_eq_some.1 hx.walk
    refine ⟨⟨hx.aligned, walk_eq_some.2 ?_⟩, by rw [hdir]; exact hx.table⟩
    rw [hdir, htable _ _ (dir_of_frame hx.table)]
    exact ⟨h1, h2, h3⟩
  refine ⟨keep k h.dir, fun i f hf => keep f (h.table i f ?_), ?_, ?_, ?_⟩
  · rw [← hf]
    unfold spaceAt Space.tables
    rw [hdir]
  · rw [hdir]
    exact h.not_own
  · rw [hdir]
    exact h.not_current
  · rw [hdir]
    exact h.not_theirs

/-! ## Whole runs -/

/-- **What a run keeps**: the tables are in reach, and hold what was last installed. -/
theorem Run.invariant (h : Run pgdKern ops m) :
    Reached m (kaToPa pgdKern) (kaToPa pgdKern) ∧
      Good (spaceAt m (kaToPa pgdKern)) (installed ops) := by
  have hka : paToKa (kaToPa pgdKern) = pgdKern := BitVec.sub_add_cancel ..
  induction h with
  | boot h hm =>
    rw [h.vmmInitAt_eq, Option.some.injEq] at hm
    exact hm ▸ ⟨h.reached, h.good⟩
  | map _ _ hp hkeep hm ih =>
    obtain ⟨m', hm', hr, hg⟩ := ih.2.mapAt ih.1 hp hkeep
    rw [hka, hm, Option.some.injEq] at hm'
    exact hm' ▸ ⟨hr, hg⟩
  | unmap _ hkeep hm ih =>
    obtain ⟨m', hm', hr, hg⟩ := ih.2.unmapAt ih.1 hkeep
    rw [hka, hm, Option.some.injEq] at hm'
    exact hm' ▸ ⟨hr, hg⟩
  | other _ hdir htable ih =>
    exact ⟨ih.1.other hdir htable, ih.2.after_other hdir htable⟩

theorem Run.getMappingAt_eq (h : Run pgdKern ops m) (va : Word) (p : Option Word) :
    getMappingAt m (kaToPa pgdKern) pgdKern va p =
      some (getMapping (spaceAt m (kaToPa pgdKern)) va p) := by
  have hka : paToKa (kaToPa pgdKern) = pgdKern := BitVec.sub_add_cancel ..
  have := h.invariant.1.getMappingAt_eq va p
  rwa [hka] at this

end Steps

/-- **When `get_mapping` tells what the MMU does**, after any run. It never faults. With somewhere to
put the frame it does, unless the word last installed is one without the present bit; with a null
pointer, only if that bit is missing. -/
theorem getMapping_agrees_iff {pgdKern : Word} {ops : List Op} {m : Phys} (h : Run pgdKern ops m)
    (va : Word) (p : Option Word) :
    ∃ r, getMappingAt m (kaToPa pgdKern) pgdKern va p = some r ∧
      (Agrees (spaceAt m (kaToPa pgdKern)) va p r ↔
        (p.isSome ∧ (installed ops va = 0 ∨ installed ops va &&& pagePresent ≠ 0)) ∨
          (p = none ∧ installed ops va &&& pagePresent = 0)) :=
  ⟨_, h.getMappingAt_eq va p, h.invariant.2.agrees_iff va p⟩

/-- The page tables of `bootMem` are shown below 9 MB. -/
theorem kept_bootMem (w : Word) :
    Kept (filled bootMem (kaToPa 0xC0150000) 0x200000) (kaToPa 0xC0150000) 0xC0900000 w := by
  have h := bootMem_handover
  intro x hx hva
  have hlt : x.toNat < 0x900000 := by
    rcases hx with rfl | ⟨i, hi⟩
    · decide
    · obtain ⟨hi, -⟩ := dir_eq_some.1 hi
      have hi : filled bootMem (kaToPa 0xC0150000) 0x200000 (kaToPa 0xC0150000) i &&& pageMask = x :=
        hi
      have hn := i.isLt
      rw [filled_pgd h, h.boot.frame_vmmInit] at hi
      subst hi
      split
      · rw [h.boot.toNat_tableFrame (by omega), show (0x200000 : Word).toNat = 0x200000 from rfl]
        omega
      · decide
  have hk : kernbase.toNat = 0xC0000000 := rfl
  have hp : ((0xC0900000 : Word) &&& pageMask).toNat = 0xC0900000 := rfl
  have hn := congrArg BitVec.toNat hva
  rw [toNat_and_pageMask, hp, paToKa, BitVec.toNat_add, hk] at hn
  omega

/-- After `vmm_init`, a word without the present bit is installed at 9 MB. -/
theorem exists_run_bootMem : ∃ m, Run 0xC0150000 [.map 0xC0900000 0x5000 pageWrite] m := by
  have h := bootMem_handover
  have hgood : Good (spaceAt (filled bootMem (kaToPa 0xC0150000) 0x200000) (kaToPa 0xC0150000))
      (installed []) := h.good
  -- there is a page table, so that no page is asked for
  have hp : filled bootMem (kaToPa 0xC0150000) 0x200000 (kaToPa 0xC0150000) (pgdIndex 0xC0900000) &&&
      pageMask = 0 → SparePage (filled bootMem (kaToPa 0xC0150000) 0x200000) (kaToPa 0xC0150000)
        (kaToPa 0xC0150000) 0 ∧ ∀ j, filled bootMem (kaToPa 0xC0150000) 0x200000 0 j = 0 := by
    rw [filled_pgd h, h.boot.frame_vmmInit, if_pos (by decide)]
    exact fun hc => absurd hc (by decide)
  obtain ⟨m', hm, -⟩ := hgood.mapAt h.reached hp (kept_bootMem _)
  exact ⟨m', .map (.boot h h.vmmInitAt_eq) (by decide) hp (kept_bootMem _) hm⟩

/-- In that run `get_mapping` is right about `KERNBASE`, and wrong about the word. -/
theorem getMapping_agrees_kernbase : ∃ m, Run 0xC0150000 [.map 0xC0900000 0x5000 pageWrite] m ∧
    (∃ r, getMappingAt m (kaToPa 0xC0150000) 0xC0150000 kernbase (some 0) = some r ∧
      Agrees (spaceAt m (kaToPa 0xC0150000)) kernbase (some 0) r) ∧
    ∃ r, getMappingAt m (kaToPa 0xC0150000) 0xC0150000 0xC0900000 (some 0) = some r ∧
      ¬ Agrees (spaceAt m (kaToPa 0xC0150000)) 0xC0900000 (some 0) r := by
  obtain ⟨m, hm⟩ := exists_run_bootMem
  obtain ⟨r, hr, hiff⟩ := getMapping_agrees_iff hm kernbase (some 0)
  obtain ⟨r', hr', hiff'⟩ := getMapping_agrees_iff hm 0xC0900000 (some 0)
  refine ⟨m, hm, ⟨r, hr, hiff.2 (.inl ⟨rfl, .inr (by decide)⟩)⟩, r', hr', fun hc => ?_⟩
  exact absurd (hiff'.1 hc) (by decide)

/-- Right after `vmm_init`, `get_mapping(pgd_kern, KERNBASE, NULL)` denies a mapping that is
there. -/
theorem getMapping_null_disagrees : ∃ m', vmmInitAt bootMem pgdTmp 0xC0150000 0x200000 = some m' ∧
    ∃ r, getMappingAt m' (kaToPa 0xC0150000) 0xC0150000 kernbase none = some r ∧
      ¬ Agrees (spaceAt m' (kaToPa 0xC0150000)) kernbase none r := by
  have h := bootMem_handover
  refine ⟨_, h.vmmInitAt_eq, _, Run.getMappingAt_eq (.boot h h.vmmInitAt_eq) _ _, fun hc => ?_⟩
  exact absurd ((h.good.agrees_iff _ _).1 hc) (by decide)

end Hurlex.Vmm
