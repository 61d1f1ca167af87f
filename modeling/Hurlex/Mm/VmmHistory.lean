import Hurlex.Mm.Vmm

/-!
# `vmm_init`, and the mappings made after it

`fillPgd` and `fillPte` are the two loops of `vmm_init` (`arch/i386/mm/vmm.c`), counted in tables; in
`Mm.VmmBoot` they run as stores through the temporary tables. The registration of the page-fault
handler is left out.

`installed` reads off the operations alone which word the last one left for an address. Each operation
keeps that word in the tables (`Good`), so what `get_mapping` and the MMU make of it can be compared:
**`Good.agrees_iff`**. The runs themselves are in `Mm.VmmRun`.
-/

namespace Hurlex.Vmm

open Lib

/-! ## `vmm_init` -/

/-- `PTE_COUNT`: the page tables of the linear mapping. -/
def pteCount : Nat := 0x38000000 / 0x400000

/-- `PTE_SIZE`. -/
def pteSize : Nat := 0x1000 / 4

/-- `KERNTOP`. -/
def kerntop : Word := 0xF8000000

/-- `pte_kern[i]`, the array of page tables right after the kernel. -/
def pteKern (kernEnd : Word) (i : Nat) : Word := kernEnd + kernbase + 0x1000 * BitVec.ofNat 32 i

/-- The directory entries, after `n` passes. -/
def fillPgd (s : Space) (kernEnd : Word) : Nat → Space
  | 0 => s
  | n + 1 =>
    let i := (pgdIndex kernbase).toNat + n
    (fillPgd s kernEnd n).setPgd (BitVec.ofNat 10 i)
      (kaToPa (pteKern kernEnd i) ||| pagePresent ||| pageWrite)

/-- The table entries, after `n` passes. `pte_start[n]` is counted through the tables from
`pte_kern[pgd_idx]` on. -/
def fillPte (s : Space) (kernEnd : Word) : Nat → Space
  | 0 => s
  | n + 1 =>
    (fillPte s kernEnd n).setPte (pteKern kernEnd ((pgdIndex kernbase).toNat + n / pteSize))
      (BitVec.ofNat 10 (n % pteSize)) ((BitVec.ofNat 32 n <<< 12) ||| pagePresent ||| pageWrite)

def vmmInit (s : Space) (kernEnd : Word) : Space :=
  fillPte (fillPgd s kernEnd pteCount) kernEnd (pteSize * pteCount)

/-- What `vmm_init` starts from: `pgd_kern` is in the bss, and the kernel ends with a page and
leaves room for the page tables. -/
structure Boot (s : Space) (kernEnd : Word) : Prop where
  empty : ∀ i, s.pgd i = 0
  aligned : kernEnd &&& pageMask = kernEnd
  room : kernEnd.toNat + 0x400000 ≤ 2 ^ 32

/-- The frame of `pte_kern[i]`. -/
def tableFrame (kernEnd : Word) (i : Nat) : Word := kernEnd + 0x1000 * BitVec.ofNat 32 i

variable {s s' : Space} {kernEnd va va' pa page flags : Word} {i k n : Nat}

theorem kaToPa_pteKern (kernEnd : Word) (i : Nat) :
    kaToPa (pteKern kernEnd i) = tableFrame kernEnd i := by
  unfold kaToPa pteKern tableFrame kernbase
  bv_omega

theorem pgdIndex_kernbase : (pgdIndex kernbase).toNat = 768 := by decide

theorem Boot.toNat_tableFrame (h : Boot s kernEnd) (hi : i < 1024) :
    (tableFrame kernEnd i).toNat = kernEnd.toNat + 2 ^ 12 * i := by
  have := h.room
  have size : (0x1000 : Word).toNat = 4096 := rfl
  rw [tableFrame, BitVec.toNat_add, BitVec.toNat_mul, size, BitVec.toNat_ofNat]
  omega

theorem Boot.tableFrame_inj (h : Boot s kernEnd) {j : Nat} (hi : i < 1024) (hj : j < 1024)
    (he : tableFrame kernEnd i = tableFrame kernEnd j) : i = j := by
  have := congrArg BitVec.toNat he
  rw [h.toNat_tableFrame hi, h.toNat_tableFrame hj] at this
  omega

theorem Boot.isFrame (h : Boot s kernEnd) (h0 : 0 < i) (hi : i < 1024) :
    IsFrame (tableFrame kernEnd i) where
  ne_zero hc := by
    have := congrArg BitVec.toNat hc
    rw [h.toNat_tableFrame hi] at this
    simp at this
    omega
  aligned := by
    have := congrArg BitVec.toNat h.aligned
    rw [toNat_and_pageMask] at this
    rw [← BitVec.toNat_inj, toNat_and_pageMask, h.toNat_tableFrame hi]
    rw [Nat.add_mul_div_left _ _ (by decide : 0 < 2 ^ 12), Nat.add_mul, this, Nat.mul_comm i]

/-- The directory half-way through its loop. -/
theorem fillPgd_pgd (s : Space) (kernEnd : Word) (i : Index) : ∀ {n : Nat}, n ≤ pteCount →
    (fillPgd s kernEnd n).pgd i =
      if 768 ≤ i.toNat ∧ i.toNat < 768 + n then
        tableFrame kernEnd i.toNat ||| pagePresent ||| pageWrite
      else s.pgd i
  | 0, _ => by rw [if_neg (by omega), fillPgd]
  | n + 1, hn => by
    have hc : pteCount = 224 := rfl
    have ih := fillPgd_pgd s kernEnd i (n := n) (by omega)
    rw [fillPgd, pgdIndex_kernbase, kaToPa_pteKern]
    by_cases hi : i = BitVec.ofNat 10 (768 + n)
    · have hin : i.toNat = 768 + n := by rw [hi, BitVec.toNat_ofNat, Nat.mod_eq_of_lt (by omega)]
      rw [if_pos (by omega), hin, hi]
      exact Function.update_self ..
    · have hin : i.toNat ≠ 768 + n := by
        intro hc
        rw [← hc, BitVec.ofNat_toNat, BitVec.setWidth_eq] at hi
        exact hi rfl
      refine (Function.update_of_ne hi ..).trans (ih.trans ?_)
      by_cases h : 768 ≤ i.toNat ∧ i.toNat < 768 + n
      · rw [if_pos h, if_pos (by omega)]
      · rw [if_neg h, if_neg (by omega)]

theorem fillPte_pgd (s : Space) (kernEnd : Word) : ∀ n, (fillPte s kernEnd n).pgd = s.pgd
  | 0 => rfl
  | n + 1 => fillPte_pgd s kernEnd n

/-- The tables half-way through theirs. -/
theorem Boot.fillPte_phys (h : Boot s' kernEnd) (s : Space) (hk : k < pteCount) (j : Index) :
    ∀ {n : Nat}, n ≤ pteSize * pteCount →
      (fillPte s kernEnd n).phys (tableFrame kernEnd (768 + k)) j =
        if pteSize * k + j.toNat < n then
          (BitVec.ofNat 32 (pteSize * k + j.toNat) <<< 12) ||| pagePresent ||| pageWrite
        else s.phys (tableFrame kernEnd (768 + k)) j
  | 0, _ => by rw [if_neg (Nat.not_lt_zero _), fillPte]
  | n + 1, hn => by
    have hc : pteCount = 224 := rfl
    have hs : pteSize = 1024 := rfl
    have ih := h.fillPte_phys s hk j (n := n) (by omega)
    rw [fillPte, pgdIndex_kernbase]
    simp only [Space.setPte, kaToPa_pteKern]
    rw [hs] at hn ih ⊢
    by_cases hf : k = n / 1024
    · subst hf
      rw [Function.update_self]
      by_cases hj : j = BitVec.ofNat 10 (n % 1024)
      · have hjn : j.toNat = n % 1024 := by
          rw [hj, BitVec.toNat_ofNat, Nat.mod_eq_of_lt (by omega)]
        rw [hjn, Nat.div_add_mod, if_pos (Nat.lt_succ_self n), hj, Function.update_self]
      · have hjn : j.toNat ≠ n % 1024 := by
          intro hc
          rw [← hc, BitVec.ofNat_toNat, BitVec.setWidth_eq] at hj
          exact hj rfl
        rw [Function.update_of_ne hj, ih]
        by_cases hlt : 1024 * (n / 1024) + j.toNat < n
        · rw [if_pos hlt, if_pos (by omega)]
        · rw [if_neg hlt, if_neg (by omega)]
    · have hne : tableFrame kernEnd (768 + k) ≠ tableFrame kernEnd (768 + n / 1024) := by
        intro hc
        exact hf (by have := h.tableFrame_inj (by omega) (by omega) hc; omega)
      rw [Function.update_of_ne hne, ih]
      by_cases hlt : 1024 * k + j.toNat < n
      · rw [if_pos hlt, if_pos (by omega)]
      · rw [if_neg hlt, if_neg (by omega)]

/-- The words of the linear mapping: `[KERNBASE, KERNTOP)` to the first physical memory. -/
def kernWord (va : Word) : Word :=
  if kernbase ≤ va ∧ va < kerntop then ((va - kernbase) &&& pageMask) ||| pagePresent ||| pageWrite
  else 0

theorem Boot.pgd_vmmInit (h : Boot s kernEnd) (i : Index) : (vmmInit s kernEnd).pgd i =
    if 768 ≤ i.toNat ∧ i.toNat < 992 then tableFrame kernEnd i.toNat ||| pagePresent ||| pageWrite
    else 0 := by
  rw [vmmInit, fillPte_pgd, fillPgd_pgd s kernEnd i (Nat.le_refl _), h.empty]
  rfl

theorem Boot.frame_vmmInit (h : Boot s kernEnd) (i : Index) :
    (vmmInit s kernEnd).pgd i &&& pageMask =
      if 768 ≤ i.toNat ∧ i.toNat < 992 then tableFrame kernEnd i.toNat else 0 := by
  rw [h.pgd_vmmInit]
  split
  · rw [(h.isFrame (by omega) (by omega)).entry]
  · decide

/-- The pages with a kernel page table are the kernel's. -/
theorem mem_kern_iff (va : Word) :
    kernbase ≤ va ∧ va < kerntop ↔ 768 ≤ (pgdIndex va).toNat ∧ (pgdIndex va).toNat < 992 := by
  rw [toNat_pgdIndex, BitVec.le_def, BitVec.lt_def]
  show 0xC0000000 ≤ va.toNat ∧ va.toNat < 0xF8000000 ↔ _
  omega

/-- Counting words through the page tables counts pages through the mapping. -/
theorem linear_frame {va : Word} (h : 768 ≤ (pgdIndex va).toNat) :
    BitVec.ofNat 32 (pteSize * ((pgdIndex va).toNat - 768) + (pteIndex va).toNat) <<< 12 =
      (va - kernbase) &&& pageMask := by
  have hs : pteSize = 1024 := rfl
  have hk : kernbase.toNat = 768 * 2 ^ 22 := rfl
  rw [toNat_pgdIndex] at h
  have sub : (va - kernbase).toNat = va.toNat - 768 * 2 ^ 22 := by
    rw [BitVec.toNat_sub_of_le (by rw [BitVec.le_def]; omega), hk]
  rw [← BitVec.toNat_inj, toNat_and_pageMask, sub, BitVec.toNat_shiftLeft, BitVec.toNat_ofNat,
    Nat.shiftLeft_eq, toNat_pgdIndex, toNat_pteIndex, hs]
  omega

/-- **After `vmm_init`** the tables hold the linear mapping. -/
theorem Boot.slot_vmmInit (h : Boot s kernEnd) (va : Word) :
    slot (vmmInit s kernEnd) va = kernWord va := by
  unfold kernWord
  by_cases hva : kernbase ≤ va ∧ va < kerntop
  · have hk := (mem_kern_iff va).1 hva
    have frame : (vmmInit s kernEnd).pgd (pgdIndex va) &&& pageMask =
        tableFrame kernEnd (768 + ((pgdIndex va).toNat - 768)) := by
      rw [h.frame_vmmInit, if_pos hk, Nat.add_sub_cancel' hk.1]
    have ne : (vmmInit s kernEnd).pgd (pgdIndex va) &&& pageMask ≠ 0 := by
      rw [frame]
      exact (h.isFrame (by omega) (by omega)).ne_zero
    have hc : pteCount = 224 := rfl
    have hs : pteSize = 1024 := rfl
    have in_range : pteSize * ((pgdIndex va).toNat - 768) + (pteIndex va).toNat <
        pteSize * pteCount := by
      rw [hc, hs]
      omega
    rw [if_pos hva, slot_of_ne ne, frame, vmmInit,
      h.fillPte_phys _ (by rw [hc]; omega) _ (Nat.le_refl _), if_pos in_range, linear_frame hk.1]
  · have hk := (not_congr (mem_kern_iff va)).1 hva
    rw [if_neg hva, slot_of_eq]
    rw [h.frame_vmmInit, if_neg hk]

/-! ## Operations -/

inductive Op where
  | map (va pa flags : Word)
  | unmap (va : Word)

/-- The word the last operation on the page of `va` left there, latest first. -/
def installed : List Op → Word → Word
  | [], va => kernWord va
  | .map va' pa flags :: ops, va =>
    if va &&& pageMask = va' &&& pageMask then (pa &&& pageMask) ||| flags else installed ops va
  | .unmap va' :: ops, va =>
    if va &&& pageMask = va' &&& pageMask then 0 else installed ops va

/-- A page that can become a page table, with no words in it yet. -/
structure ZeroPage (s : Space) (page : Word) : Prop extends Spare s page where
  zero : ∀ k, s.phys page k = 0

/-- What the operations keep of a space whose tables hold `word`. -/
structure Good (s : Space) (word : Word → Word) : Prop where
  unshared : TwoLevel.Unshared s.tables
  present : ∀ i, s.pgd i &&& pagePresent ≠ 0 ↔ s.pgd i &&& pageMask ≠ 0
  holds : ∀ va, slot s va = word va

/-! ### One step -/

variable {word : Word → Word}

theorem entry_present (f : Word) : (f ||| pagePresent ||| pageWrite) &&& pagePresent ≠ 0 := by
  intro h
  have h0 := congrArg (fun w : Word => w.getLsbD 0) h
  simp [pagePresent, pageWrite] at h0

theorem Boot.good (h : Boot s kernEnd) : Good (vmmInit s kernEnd) kernWord where
  unshared i j f hi hj := by
    rw [dir_eq_some, h.frame_vmmInit] at hi hj
    by_cases hir : 768 ≤ i.toNat ∧ i.toNat < 992
    · by_cases hjr : 768 ≤ j.toNat ∧ j.toNat < 992
      · rw [if_pos hir] at hi
        rw [if_pos hjr] at hj
        exact BitVec.toNat_inj.1 (h.tableFrame_inj (by omega) (by omega) (hi.1.trans hj.1.symm))
      · rw [if_neg hjr] at hj
        exact absurd hj.1.symm hj.2
    · rw [if_neg hir] at hi
      exact absurd hi.1.symm hi.2
  present i := by
    rw [h.frame_vmmInit, h.pgd_vmmInit]
    by_cases hr : 768 ≤ i.toNat ∧ i.toNat < 992
    · rw [if_pos hr, if_pos hr]
      exact ⟨fun _ => (h.isFrame (by omega) (by omega)).ne_zero, fun _ => entry_present _⟩
    · rw [if_neg hr, if_neg hr]
      decide
  holds := h.slot_vmmInit

/-- `map` installs one word, whether its page table is new or not. -/
theorem Good.slot_map (h : Good s word)
    (hp : s.pgd (pgdIndex va) &&& pageMask = 0 → ZeroPage s page) :
    slot (map s page va pa flags) va' =
      if va' &&& pageMask = va &&& pageMask then (pa &&& pageMask) ||| flags else word va' := by
  by_cases h0 : s.pgd (pgdIndex va) &&& pageMask = 0
  · rw [slot_map_new h0 (hp h0).toSpare]
    by_cases hi : pgdIndex va' = pgdIndex va
    · by_cases hj : pteIndex va' = pteIndex va
      · rw [if_pos hi, if_pos hj, if_pos (page_eq_iff.2 ⟨hi, hj⟩)]
      · rw [if_pos hi, if_neg hj, if_neg fun hc => hj (page_eq_iff.1 hc).2, (hp h0).zero,
          ← h.holds, slot_of_eq (by rw [hi]; exact h0)]
    · rw [if_neg hi, if_neg fun hc => hi (page_eq_iff.1 hc).1, h.holds]
  · rw [slot_map_old rfl h0]
    by_cases hc : va' &&& pageMask = va &&& pageMask
    · obtain ⟨hi, hj⟩ := page_eq_iff.1 hc
      rw [if_pos ⟨by rw [hi], hj⟩, if_pos hc]
    · rw [if_neg hc, if_neg, h.holds]
      rintro ⟨hi, hj⟩
      have hd : s.tables.dir (pgdIndex va') = some (s.pgd (pgdIndex va) &&& pageMask) :=
        dir_eq_some.2 ⟨hi, h0⟩
      exact hc (page_eq_iff.2 ⟨h.unshared hd (dir_of_ne h0), hj⟩)

theorem Good.after_map (h : Good s word)
    (hp : s.pgd (pgdIndex va) &&& pageMask = 0 → ZeroPage s page) :
    Good (map s page va pa flags) fun va' =>
      if va' &&& pageMask = va &&& pageMask then (pa &&& pageMask) ||| flags else word va' where
  unshared := by
    rw [tables_map fun h0 => (hp h0).toIsFrame, grown]
    by_cases h0 : s.pgd (pgdIndex va) &&& pageMask = 0
    · rw [if_pos h0]
      exact (h.unshared.attach fun i hi => (hp h0).unused i (dir_eq_some.1 hi).1).put
    · rw [if_neg h0]
      exact h.unshared.put
  present i := by
    unfold map
    by_cases h0 : s.pgd (pgdIndex va) &&& pageMask = 0
    · simp only [if_pos h0, Space.setPte, Space.setPgd]
      by_cases hi : i = pgdIndex va
      · rw [hi, Function.update_self, (hp h0).entry]
        exact ⟨fun _ => (hp h0).ne_zero, fun _ => entry_present page⟩
      · rw [Function.update_of_ne hi]
        exact h.present i
    · simp only [if_neg h0, Space.setPte]
      exact h.present i
  holds _ := h.slot_map hp

theorem Good.after_unmap (h : Good s word) :
    Good (unmap s va) fun va' => if va' &&& pageMask = va &&& pageMask then 0 else word va' := by
  unfold unmap
  by_cases h0 : s.pgd (pgdIndex va) &&& pageMask = 0
  · have already (va' : Word) (hc : va' &&& pageMask = va &&& pageMask) : word va' = 0 := by
      rw [← h.holds, slot_congr hc, slot_of_eq h0]
    simp only [if_pos h0]
    refine ⟨h.unshared, h.present, fun va' => ?_⟩
    by_cases hc : va' &&& pageMask = va &&& pageMask
    · rw [if_pos hc, h.holds, already va' hc]
    · rw [if_neg hc, h.holds]
  · simp only [if_neg h0]
    refine ⟨?_, h.present, fun va' => ?_⟩
    · rw [tables_setPte]
      exact h.unshared.put
    · rw [slot, tables_setPte, h.unshared.get_put (dir_of_ne h0)]
      by_cases hc : va' &&& pageMask = va &&& pageMask
      · rw [if_pos (page_eq_iff.1 hc), if_pos hc, Option.getD_some]
      · rw [if_neg fun hi => hc (page_eq_iff.2 hi), if_neg hc, ← h.holds, slot]

/-- It depends on the directory and on the words found through it. -/
theorem Good.congr (h : Good s word) (hpgd : s'.pgd = s.pgd) (hslot : ∀ va, slot s' va = slot s va) :
    Good s' word where
  unshared := by
    have dir : s'.tables.dir = s.tables.dir := by simp only [Space.tables, hpgd]
    intro i j f hi hj
    rw [dir] at hi hj
    exact h.unshared hi hj
  present := by rw [hpgd]; exact h.present
  holds va := (hslot va).trans (h.holds va)

/-- Writes to pages that are not page tables. -/
theorem Good.after_other (h : Good s word) (hpgd : s'.pgd = s.pgd)
    (hphys : ∀ i f, s.tables.dir i = some f → s'.phys f = s.phys f) : Good s' word :=
  h.congr hpgd (slot_frame hpgd hphys)

/-! ## The software walk and the MMU's -/

/-- The table entry both walks arrive at. -/
def tableEntry (s : Space) (va : Word) : Word :=
  s.phys (s.pgd (pgdIndex va) &&& pageMask) (pteIndex va)

/-- The i386 walk: the frame, if both entries are present. -/
def walk (s : Space) (va : Word) : Option Word :=
  if s.pgd (pgdIndex va) &&& pagePresent = 0 then none
  else if tableEntry s va &&& pagePresent = 0 then none
  else some (tableEntry s va &&& pageMask)

/-- What `get_mapping(va, p)` comes to, `r`, tells what the MMU does, and `*p` is the frame of the
table entry. -/
structure Agrees (s : Space) (va : Word) (p : Option Word) (r : Word × Option Word) : Prop where
  result : r.1 = 1 ↔ (walk s va).isSome
  frame : ∀ x, p = some x → r.1 = 1 → r.2 = some (tableEntry s va &&& pageMask)

theorem Good.walk_isSome (h : Good s word) (va : Word) :
    (walk s va).isSome ↔ word va &&& pagePresent ≠ 0 := by
  rw [← h.holds]
  unfold walk
  by_cases h0 : s.pgd (pgdIndex va) &&& pageMask = 0
  · have hd : s.pgd (pgdIndex va) &&& pagePresent = 0 := not_not.1 fun hc => (h.present _).1 hc h0
    rw [if_pos hd, slot_of_eq h0]
    decide
  · rw [if_neg ((h.present _).2 h0), slot_of_ne h0, tableEntry]
    split
    · next hz => exact ⟨fun hc => absurd hc (by decide), fun hc => absurd hz hc⟩
    · next hz => exact ⟨fun _ => hz, fun _ => rfl⟩

theorem getMapping_fst (s : Space) (va : Word) (p : Option Word) :
    (getMapping s va p).1 = 1 ↔ slot s va ≠ 0 ∧ p.isSome := by
  rw [getMapping_eq]
  split
  · next h => exact ⟨fun _ => h, fun _ => rfl⟩
  · next h => exact ⟨fun hc => absurd (show (0 : Word) = 1 from hc) (by decide), fun hc => absurd hc h⟩

/-- A word is read where the MMU reads it. -/
theorem getMapping_snd (s : Space) (va : Word) (p : Option Word) (h : (getMapping s va p).1 = 1) :
    (getMapping s va p).2 = some (tableEntry s va &&& pageMask) := by
  have hm := (getMapping_fst s va p).1 h
  have h0 : s.pgd (pgdIndex va) &&& pageMask ≠ 0 := fun hc => hm.1 (slot_of_eq hc)
  rw [getMapping_eq, if_pos hm, slot_of_ne h0]
  rfl

/-- **When `get_mapping` tells what the MMU does.** With somewhere to put the frame, unless the word
is one without the present bit; with a null pointer, only if that bit is missing. -/
theorem Good.agrees_iff (h : Good s word) (va : Word) (p : Option Word) :
    Agrees s va p (getMapping s va p) ↔
      (p.isSome ∧ (word va = 0 ∨ word va &&& pagePresent ≠ 0)) ∨
        (p = none ∧ word va &&& pagePresent = 0) := by
  have hiff : Agrees s va p (getMapping s va p) ↔
      (word va ≠ 0 ∧ p.isSome ↔ word va &&& pagePresent ≠ 0) := by
    rw [← h.walk_isSome va, ← h.holds va, ← getMapping_fst]
    exact ⟨Agrees.result, fun hr => ⟨hr, fun x _ => getMapping_snd s va p⟩⟩
  have zero (w : Word) (hw : w &&& pagePresent ≠ 0) : w ≠ 0 := by
    rintro rfl
    exact hw (by decide)
  rw [hiff]
  cases p with
  | none => simp
  | some x =>
    have := zero (word va)
    simp only [Option.isSome_some, and_true, true_and, reduceCtorEq, false_and, or_false]
    grind

end Hurlex.Vmm
