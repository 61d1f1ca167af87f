import Hurlex.Mm.VmmHistory

/-!
# From the temporary page tables to the kernel's

`mmap_tmp_page` (`arch/i386/init/init.c`) runs without paging and maps the first 16 MB. `vmm_init`
then runs behind that mapping: each of its stores goes through the temporary tables, and counts
words through all page tables at once. `Phys` is the memory both work on.

**`linear_mapping`**: no store faults, the directory that is installed maps `KERNTOP - KERNBASE`
bytes linearly, and no store leaves the room that `pmm.c` keeps for the page tables.
-/

namespace Hurlex.Vmm

open Lib

/-- Physical memory: the words of the page at each page address. -/
abbrev Phys := Word → Index → Word

/-- Which word of its page an address is. -/
def wordIndex (a : Word) : Index := ((a >>> 2) &&& 0x3FF).setWidth 10

def Phys.load (m : Phys) (pa : Word) : Word := m (pa &&& pageMask) (wordIndex pa)

def Phys.store (m : Phys) (pa w : Word) : Phys :=
  Function.update m (pa &&& pageMask)
    (Function.update (m (pa &&& pageMask)) (wordIndex pa) w)

/-- The first `n` words of the array `base`. -/
def Phys.fill (m : Phys) (base : Word) (v : Nat → Word) : Nat → Phys
  | 0 => m
  | n + 1 => (m.fill base v n).store (base + 4 * BitVec.ofNat 32 n) (v n)

/-- The directory at `cr3`, and the memory its tables are in. -/
def spaceAt (m : Phys) (cr3 : Word) : Space := ⟨m cr3, m⟩

/-- The MMU. -/
def translate (m : Phys) (cr3 va : Word) : Option Word :=
  (walk (spaceAt m cr3) va).map (· + (va &&& 0xFFF))

/-- A store, with paging on. `none` is a page fault. -/
def kstore (m : Phys) (cr3 va w : Word) : Option Phys :=
  (translate m cr3 va).map fun pa => m.store pa w

def kload (m : Phys) (cr3 va : Word) : Option Word := (translate m cr3 va).map m.load

/-- `Phys.fill`, with paging on. -/
def kfill (m : Phys) (cr3 base : Word) (v : Nat → Word) : Nat → Option Phys
  | 0 => some m
  | n + 1 => do
    let m ← kfill m cr3 base v n
    kstore m cr3 (base + 4 * BitVec.ofNat 32 n) (v n)

/-! ## `mmap_tmp_page` -/

def pgdTmp : Word := 0x1000

def pteLow : Word := 0x2000

def pteHign : Word := 0x3000

/-- `PAGE_MAP_SIZE`. -/
def pageMapSize : Word := 0x400000

/-- The word for page `i` in a table that starts a linear mapping. -/
def linearWord (i : Nat) : Word := (BitVec.ofNat 32 i <<< 12) ||| pagePresent ||| pageWrite

def mmapTmpPage (m : Phys) : Phys :=
  let m := m.store pgdTmp (pteLow ||| pagePresent ||| pageWrite)
  let m := (List.range 4).foldl (fun m i =>
    let pgdIdx := pgdIndex (kernbase + pageMapSize * BitVec.ofNat 32 i)
    m.store (pgdTmp + 4 * pgdIdx.setWidth 32)
      ((pteHign + 0x1000 * BitVec.ofNat 32 i) ||| pagePresent ||| pageWrite)) m
  let m := m.fill pteLow linearWord 1024
  m.fill pteHign linearWord (1024 * 4)

/-! ## `vmm_init` -/

/-- `KVPAGE_SIZE`. -/
def kvpageSize : Word := 0x400000

/-- `pte_addr`. -/
def pteAddr (kernEnd : Word) : Word := kernEnd + kernbase

/-- `phy_pages`. -/
def phyPages (kernEnd : Word) : Word := kernEnd + kernbase + kvpageSize

/-- `pte_start`: the words of `pte_kern[pgd_idx]` and the tables behind it as one array. -/
def pteStart (kernEnd : Word) : Word :=
  pteAddr kernEnd + 4 * (BitVec.ofNat 32 pteSize * (pgdIndex kernbase).setWidth 32)

/-- `vmm_init`, up to where it switches to `pgd_kern`. -/
def vmmInitAt (m : Phys) (cr3 pgdKern kernEnd : Word) : Option Phys := do
  let pgdIdx := pgdIndex kernbase
  let m ← kfill m cr3 (pgdKern + 4 * pgdIdx.setWidth 32)
    (fun n => kaToPa (pteKern kernEnd (pgdIdx.toNat + n)) ||| pagePresent ||| pageWrite) pteCount
  kfill m cr3 (pteStart kernEnd) linearWord (pteSize * pteCount)

/-- `get_mapping`, with paging on. -/
def getMappingAt (m : Phys) (cr3 pgdNow va : Word) (p : Option Word) :
    Option (Word × Option Word) := do
  let e ← kload m cr3 (pgdNow + 4 * (pgdIndex va).setWidth 32)
  let pte := e &&& pageMask
  if pte = 0 then return (0, p)
  else
    let w ← kload m cr3 (paToKa pte + 4 * (pteIndex va).setWidth 32)
    if w ≠ 0 ∧ p.isSome then return (1, some (w &&& pageMask))
    else return (0, p)

/-! ## Words of arrays -/

section Arrays

variable {m : Phys} {pa base f w : Word} {j : Index} {n : Nat} {v : Nat → Word}

theorem toNat_wordIndex (a : Word) : (wordIndex a).toNat = a.toNat / 2 ^ 2 % 2 ^ 10 :=
  toNat_field a 2

/-- Where the word `j` of the page `f` is. -/
def wordAddr (f : Word) (j : Index) : Nat := f.toNat + 2 ^ 2 * j.toNat

theorem page_aligned_iff : f &&& pageMask = f ↔ 2 ^ 12 ∣ f.toNat := by
  rw [← BitVec.toNat_inj, toNat_and_pageMask]
  omega

theorem wordAddr_eq_iff (hf : f &&& pageMask = f) (hpa : 2 ^ 2 ∣ pa.toNat) :
    wordAddr f j = pa.toNat ↔ f = pa &&& pageMask ∧ j = wordIndex pa := by
  rw [page_aligned_iff] at hf
  have hj := j.isLt
  rw [← BitVec.toNat_inj, ← BitVec.toNat_inj, toNat_and_pageMask, toNat_wordIndex, wordAddr]
  omega

theorem Phys.store_apply (hf : f &&& pageMask = f) (hpa : 2 ^ 2 ∣ pa.toNat) :
    m.store pa w f j = if wordAddr f j = pa.toNat then w else m f j := by
  unfold Phys.store
  by_cases hfp : f = pa &&& pageMask
  · subst hfp
    rw [Function.update_self]
    by_cases hj : j = wordIndex pa
    · subst hj
      rw [Function.update_self, if_pos ((wordAddr_eq_iff hf hpa).2 ⟨rfl, rfl⟩)]
    · rw [Function.update_of_ne hj, if_neg fun h => hj ((wordAddr_eq_iff hf hpa).1 h).2]
  · rw [Function.update_of_ne hfp, if_neg fun h => hfp ((wordAddr_eq_iff hf hpa).1 h).1]

theorem toNat_elem (h : base.toNat + 2 ^ 2 * n < 2 ^ 32) :
    (base + 4 * BitVec.ofNat 32 n).toNat = base.toNat + 2 ^ 2 * n := by
  have h4 : (4 : Word).toNat = 2 ^ 2 := rfl
  rw [BitVec.toNat_add, BitVec.toNat_mul, BitVec.toNat_ofNat, h4]
  omega

/-- **An array is filled in** where it is, and nothing else changes. -/
theorem Phys.fill_apply (hf : f &&& pageMask = f) (hb : 2 ^ 2 ∣ base.toNat) :
    ∀ {n : Nat}, base.toNat + 2 ^ 2 * n ≤ 2 ^ 32 → m.fill base v n f j =
      if base.toNat ≤ wordAddr f j ∧ wordAddr f j < base.toNat + 2 ^ 2 * n then
        v ((wordAddr f j - base.toNat) / 2 ^ 2)
      else m f j
  | 0, _ => by rw [if_neg (by omega), Phys.fill]
  | n + 1, hn => by
    have hlt : base.toNat + 2 ^ 2 * n < 2 ^ 32 := by omega
    have hpa : 2 ^ 2 ∣ (base + 4 * BitVec.ofNat 32 n).toNat := by
      rw [toNat_elem hlt]
      omega
    rw [Phys.fill, Phys.store_apply hf hpa, toNat_elem hlt, fill_apply hf hb hlt.le]
    by_cases hw : wordAddr f j = base.toNat + 2 ^ 2 * n
    · rw [if_pos hw, if_pos (by omega), hw]
      congr 1
      omega
    · rw [if_neg hw]
      have hiff : (base.toNat ≤ wordAddr f j ∧ wordAddr f j < base.toNat + 2 ^ 2 * n) ↔
          (base.toNat ≤ wordAddr f j ∧ wordAddr f j < base.toNat + 2 ^ 2 * (n + 1)) := by
        have hal : 2 ^ 2 ∣ wordAddr f j := by
          rw [page_aligned_iff] at hf
          rw [wordAddr]
          omega
        omega
      simp only [hiff]

end Arrays

/-! ## The temporary tables -/

/-- The MMU takes `va` to the frame `f`, for writing too. -/
structure Maps (s : Space) (va f : Word) : Prop where
  frame : walk s va = some f
  dir_write : s.pgd (pgdIndex va) &&& pageWrite ≠ 0
  table_write : tableEntry s va &&& pageWrite ≠ 0

/-- The tables for the first 16 MB from `KERNBASE` on. -/
structure TmpTables (m : Phys) : Prop where
  dir : ∀ i < 4, m pgdTmp (BitVec.ofNat 10 (768 + i)) =
    (pteHign + 0x1000 * BitVec.ofNat 32 i) ||| pagePresent ||| pageWrite
  table : ∀ i < 4, ∀ j : Index, m (pteHign + 0x1000 * BitVec.ofNat 32 i) j =
    linearWord (1024 * i + j.toNat)

section Tmp

variable {m m' : Phys} {pa base va f w : Word} {j : Index} {i n : Nat} {v : Nat → Word}

theorem toNat_pteHign (hi : i < 4) :
    (pteHign + 0x1000 * BitVec.ofNat 32 i).toNat = 2 ^ 12 * (3 + i) := by
  have h1 : (0x1000 : Word).toNat = 2 ^ 12 := rfl
  have h3 : pteHign.toNat = 2 ^ 12 * 3 := rfl
  rw [BitVec.toNat_add, BitVec.toNat_mul, BitVec.toNat_ofNat, h1, h3]
  omega

theorem tmpTables_mmapTmpPage (m : Phys) : TmpTables (mmapTmpPage m) where
  dir i hi := by
    have hf : pgdTmp &&& pageMask = pgdTmp := by decide
    have addr (k : Nat) (hk : k < 4) :
        wordAddr pgdTmp (BitVec.ofNat 10 (768 + k)) = 2 ^ 12 + 2 ^ 2 * (768 + k) := by
      rw [wordAddr, BitVec.toNat_ofNat, Nat.mod_eq_of_lt (by omega)]
      rfl
    have hlow : pteLow.toNat = 2 ^ 12 * 2 := rfl
    have hhign : pteHign.toNat = 2 ^ 12 * 3 := rfl
    rw [mmapTmpPage, Phys.fill_apply hf (by decide) (by decide), addr i hi, hhign,
      if_neg (by omega), Phys.fill_apply hf (by decide) (by decide), addr i hi, hlow,
      if_neg (by omega)]
    simp only [List.range_succ, List.range_zero, List.nil_append, List.cons_append,
      List.foldl_cons, List.foldl_nil]
    rw [Phys.store_apply hf (by decide), Phys.store_apply hf (by decide),
      Phys.store_apply hf (by decide), Phys.store_apply hf (by decide), addr i hi]
    have slot (k : Nat) (hk : k < 4) : (pgdTmp + 4 * (pgdIndex (kernbase +
        pageMapSize * BitVec.ofNat 32 k)).setWidth 32).toNat = 2 ^ 12 + 2 ^ 2 * (768 + k) := by
      have : ∀ k : Fin 4, (pgdTmp + 4 * (pgdIndex (kernbase +
        pageMapSize * BitVec.ofNat 32 k)).setWidth 32).toNat = 2 ^ 12 + 2 ^ 2 * (768 + k) := by
        decide
      exact this ⟨k, hk⟩
    rw [slot 0 (by decide), slot 1 (by decide), slot 2 (by decide), slot 3 (by decide)]
    obtain rfl | rfl | rfl | rfl : i = 0 ∨ i = 1 ∨ i = 2 ∨ i = 3 := by omega
    all_goals rfl
  table i hi j := by
    have hf : (pteHign + 0x1000 * BitVec.ofNat 32 i) &&& pageMask =
        pteHign + 0x1000 * BitVec.ofNat 32 i := by
      rw [page_aligned_iff, toNat_pteHign hi]
      exact Nat.dvd_mul_right ..
    have hj := j.isLt
    have hb : pteHign.toNat = 2 ^ 12 * 3 := rfl
    rw [mmapTmpPage, Phys.fill_apply hf (by decide) (by decide), wordAddr, toNat_pteHign hi, hb,
      if_pos (by omega)]
    congr 1
    omega

/-- The temporary tables lie below the kernel. -/
theorem TmpTables.frame (h : TmpTables m) (hm : ∀ f : Word, f.toNat < 2 ^ 12 * 7 → m' f = m f) :
    TmpTables m' where
  dir i hi := by rw [hm _ (by decide), h.dir i hi]
  table i hi j := by
    rw [hm _ (by rw [toNat_pteHign hi]; omega), h.table i hi j]

theorem store_below (hf : f.toNat < 2 ^ 12 * 7) (hpa : 2 ^ 12 * 7 ≤ pa.toNat) :
    m.store pa w f = m f := by
  refine Function.update_of_ne (fun hc => ?_) ..
  have := congrArg BitVec.toNat hc
  rw [toNat_and_pageMask] at this
  omega

theorem entry_write (f : Word) : (f ||| pagePresent ||| pageWrite) &&& pageWrite ≠ 0 := by
  intro h
  have h1 := congrArg (fun w : Word => w.getLsbD 1) h
  simp [pagePresent, pageWrite] at h1

theorem linearWord_frame (i : Nat) :
    linearWord i &&& pageMask = BitVec.ofNat 32 i <<< 12 := by
  refine frame_entry ?_
  rw [page_aligned_iff, BitVec.toNat_shiftLeft, Nat.shiftLeft_eq]
  omega

/-- A directory entry and a table entry that are present make up a mapping. -/
theorem maps_of_entries {s : Space} {d t : Word} (hd : d &&& pageMask = d)
    (h : s.pgd (pgdIndex va) = d ||| pagePresent ||| pageWrite)
    (ht : s.phys d (pteIndex va) = t ||| pagePresent ||| pageWrite) :
    Maps s va ((t ||| pagePresent ||| pageWrite) &&& pageMask) := by
  have he : tableEntry s va = t ||| pagePresent ||| pageWrite := by
    rw [tableEntry, h, frame_entry hd, ht]
  refine ⟨?_, ?_, ?_⟩
  · rw [walk, h, he, if_neg (entry_present d), if_neg (entry_present t)]
  · rw [h]
    exact entry_write d
  · rw [he]
    exact entry_write t

/-- **Behind the temporary tables** lie the first 16 MB. -/
theorem TmpTables.maps (h : TmpTables m) (hlo : 2 ^ 22 * 768 ≤ va.toNat)
    (hhi : va.toNat < 2 ^ 22 * 772) : Maps (spaceAt m pgdTmp) va ((va - kernbase) &&& pageMask) := by
  have hk := toNat_pgdIndex va
  obtain ⟨k, hk4, hi⟩ : ∃ k < 4, (pgdIndex va).toNat = 768 + k :=
    ⟨va.toNat / 2 ^ 22 - 768, by omega, by omega⟩
  have hpgd : pgdIndex va = BitVec.ofNat 10 (768 + k) := by
    rw [← hi, BitVec.ofNat_toNat, BitVec.setWidth_eq]
  have hd : (pteHign + 0x1000 * BitVec.ofNat 32 k) &&& pageMask =
      pteHign + 0x1000 * BitVec.ofNat 32 k := by
    rw [page_aligned_iff, toNat_pteHign hk4]
    exact Nat.dvd_mul_right ..
  have hmaps := maps_of_entries (s := spaceAt m pgdTmp) hd (hpgd ▸ h.dir k hk4)
    (h.table k hk4 (pteIndex va))
  have hlin := @linear_frame va (by omega)
  rw [hi, Nat.add_sub_cancel_left] at hlin
  rw [← hlin, ← linearWord_frame]
  exact hmaps

theorem toNat_offset (a : Word) : (a &&& 0xFFF).toNat = a.toNat % 2 ^ 12 := by
  rw [BitVec.toNat_and]
  exact Nat.and_two_pow_sub_one_eq_mod a.toNat 12

/-- An address is translated within its frame. -/
theorem Maps.translate_eq {cr3 : Word} (h : Maps (spaceAt m cr3) va ((va - kernbase) &&& pageMask))
    (hlo : kernbase.toNat ≤ va.toNat) : translate m cr3 va = some (va - kernbase) := by
  have hk : kernbase.toNat = 2 ^ 12 * 786432 := rfl
  rw [translate, h.frame, Option.map_some, Option.some.injEq, ← BitVec.toNat_inj,
    BitVec.toNat_add, toNat_and_pageMask, toNat_offset,
    BitVec.toNat_sub_of_le (BitVec.le_def.2 hlo)]
  omega

/-- `vmm_init`'s loops, as seen from the physical memory. -/
theorem TmpTables.kfill_eq (h : TmpTables m) (hlo : 2 ^ 12 * 7 ≤ pa.toNat) : ∀ {n : Nat},
    pa.toNat + 2 ^ 2 * n ≤ 2 ^ 24 →
      kfill m pgdTmp (paToKa pa) v n = some (m.fill pa v n) ∧ TmpTables (m.fill pa v n)
  | 0, _ => ⟨rfl, h⟩
  | n + 1, hn => by
    obtain ⟨ih, ht⟩ := h.kfill_eq hlo (n := n) (by omega)
    have hpa : (pa + 4 * BitVec.ofNat 32 n).toNat = pa.toNat + 2 ^ 2 * n := toNat_elem (by omega)
    have hka : paToKa pa + 4 * BitVec.ofNat 32 n = paToKa (pa + 4 * BitVec.ofNat 32 n) := by
      unfold paToKa
      exact add_right_comm ..
    have hva : (paToKa (pa + 4 * BitVec.ofNat 32 n)).toNat =
        2 ^ 22 * 768 + pa.toNat + 2 ^ 2 * n := by
      have hk : kernbase.toNat = 2 ^ 22 * 768 := rfl
      rw [paToKa, BitVec.toNat_add, hpa, hk]
      omega
    have htr := (@TmpTables.maps _ (paToKa (pa + 4 * BitVec.ofNat 32 n)) ht (by omega)
      (by omega)).translate_eq (by
        rw [hva]
        show 2 ^ 22 * 768 ≤ _
        omega)
    refine ⟨?_, ht.frame fun f hf => store_below hf (by rw [hpa]; omega)⟩
    rw [kfill, ih, hka]
    simp only [bind, Option.bind, kstore]
    rw [htr]
    simp only [Option.map_some, Phys.fill]
    rw [paToKa, BitVec.add_sub_cancel]

end Tmp

/-! ## What `vmm_init` leaves behind -/

/-- Where `vmm_init` starts: the temporary tables are still as `mmap_tmp_page` made them of `m₀`,
`pgd_kern` is a zeroed page of the kernel, which `kernel.ld` links from 1 MB on and ends with a
page, and behind the kernel there is room for the page tables in the first 16 MB. -/
structure Handover (m₀ m : Phys) (pgdKern kernEnd : Word) : Prop where
  tmp : ∀ f : Word, f.toNat < 2 ^ 12 * 7 → m f = mmapTmpPage m₀ f
  empty : ∀ i, m (kaToPa pgdKern) i = 0
  pgd_aligned : kaToPa pgdKern &&& pageMask = kaToPa pgdKern
  kern_start : 0x100000 ≤ kaToPa pgdKern
  kern_end : kaToPa pgdKern < kernEnd
  aligned : kernEnd &&& pageMask = kernEnd
  room : kernEnd.toNat + kvpageSize.toNat ≤ 2 ^ 24

/-- The memory after `vmm_init`, `pgd_kern` being the page `k`. -/
@[irreducible] def filled (m : Phys) (k kernEnd : Word) : Phys :=
  (m.fill (k + 0xC00) (fun n => tableFrame kernEnd (768 + n) ||| pagePresent ||| pageWrite)
    pteCount).fill (kernEnd + 0x300000) linearWord (pteSize * pteCount)

section Installed

variable {m₀ m : Phys} {pgdKern kernEnd va f : Word} {i j : Index} {n : Nat}

theorem Handover.numbers (h : Handover m₀ m pgdKern kernEnd) :
    2 ^ 20 ≤ (kaToPa pgdKern).toNat ∧ (kaToPa pgdKern).toNat + 2 ^ 12 ≤ kernEnd.toNat ∧
      kernEnd.toNat + 2 ^ 22 ≤ 2 ^ 24 ∧ 2 ^ 12 ∣ (kaToPa pgdKern).toNat ∧
      2 ^ 12 ∣ kernEnd.toNat := by
  have h1 : 2 ^ 20 ≤ (kaToPa pgdKern).toNat := BitVec.le_def.1 h.kern_start
  have h2 := BitVec.lt_def.1 h.kern_end
  have h3 : kernEnd.toNat + 2 ^ 22 ≤ 2 ^ 24 := h.room
  have h4 := page_aligned_iff.1 h.pgd_aligned
  have h5 := page_aligned_iff.1 h.aligned
  exact ⟨h1, by omega, h3, h4, h5⟩

/-- Where the two arrays start that `vmm_init` fills. -/
theorem Handover.arrays (h : Handover m₀ m pgdKern kernEnd) :
    (kaToPa pgdKern + 0xC00).toNat = (kaToPa pgdKern).toNat + 2 ^ 2 * 768 ∧
      (kernEnd + 0x300000).toNat = kernEnd.toNat + 2 ^ 12 * 768 := by
  obtain ⟨-, h2, h3, -, -⟩ := h.numbers
  constructor
  · rw [BitVec.toNat_add, show (0xC00 : Word).toNat = 2 ^ 2 * 768 from rfl]
    omega
  · rw [BitVec.toNat_add, show (0x300000 : Word).toNat = 2 ^ 12 * 768 from rfl]
    omega

theorem Handover.boot (h : Handover m₀ m pgdKern kernEnd) :
    Boot (spaceAt m (kaToPa pgdKern)) kernEnd where
  empty := h.empty
  aligned := h.aligned
  room := by
    have := h.numbers.2.2.1
    show kernEnd.toNat + 2 ^ 22 ≤ 2 ^ 32
    omega

/-- **No store faults**, and this is what they leave. -/
theorem Handover.vmmInitAt_eq (h : Handover m₀ m pgdKern kernEnd) :
    vmmInitAt m pgdTmp pgdKern kernEnd = some (filled m (kaToPa pgdKern) kernEnd) := by
  obtain ⟨h1, h2, h3, -, -⟩ := h.numbers
  have ht : TmpTables m := (tmpTables_mmapTmpPage m₀).frame h.tmp
  have hc : pteCount = 224 := rfl
  have hs : pteSize * pteCount = 2 ^ 10 * 224 := rfl
  obtain ⟨hb1, hb2⟩ := h.arrays
  have he1 : pgdKern + 4 * (pgdIndex kernbase).setWidth 32 = paToKa (kaToPa pgdKern + 0xC00) := by
    rw [show 4 * (pgdIndex kernbase).setWidth 32 = (0xC00 : Word) from rfl, paToKa, kaToPa]
    bv_omega
  have he2 : pteStart kernEnd = paToKa (kernEnd + 0x300000) := by
    rw [pteStart, pteAddr, paToKa,
      show 4 * (BitVec.ofNat 32 pteSize * (pgdIndex kernbase).setWidth 32) = (0x300000 : Word) from rfl]
    bv_omega
  obtain ⟨k1, t1⟩ := @TmpTables.kfill_eq m (kaToPa pgdKern + 0xC00)
    (fun n => tableFrame kernEnd (768 + n) ||| pagePresent ||| pageWrite) ht (by omega)
    pteCount (by omega)
  obtain ⟨k2, -⟩ := @TmpTables.kfill_eq _ (kernEnd + 0x300000) linearWord t1 (by omega)
    (pteSize * pteCount) (by omega)
  rw [vmmInitAt, he1, he2]
  simp only [pgdIndex_kernbase, kaToPa_pteKern]
  rw [k1, Option.bind_eq_bind, Option.bind_some, k2, filled]

theorem filled_apply (h : Handover m₀ m pgdKern kernEnd) (hf : f &&& pageMask = f) :
    filled m (kaToPa pgdKern) kernEnd f j =
      if kernEnd.toNat + 2 ^ 12 * 768 ≤ wordAddr f j ∧
          wordAddr f j < kernEnd.toNat + 2 ^ 12 * 992 then
        linearWord ((wordAddr f j - (kernEnd.toNat + 2 ^ 12 * 768)) / 2 ^ 2)
      else if (kaToPa pgdKern).toNat + 2 ^ 2 * 768 ≤ wordAddr f j ∧
          wordAddr f j < (kaToPa pgdKern).toNat + 2 ^ 2 * 992 then
        tableFrame kernEnd (768 + (wordAddr f j - ((kaToPa pgdKern).toNat + 2 ^ 2 * 768)) / 2 ^ 2)
          ||| pagePresent ||| pageWrite
      else m f j := by
  obtain ⟨h1, h2, h3, h4, h5⟩ := h.numbers
  have hc : pteCount = 224 := rfl
  have hs : pteSize * pteCount = 2 ^ 10 * 224 := rfl
  obtain ⟨hb1, hb2⟩ := h.arrays
  rw [filled, Phys.fill_apply hf (by omega) (by omega), Phys.fill_apply hf (by omega) (by omega),
    hb1, hb2, hs, hc]
  have e1 : kernEnd.toNat + 2 ^ 12 * 768 + 2 ^ 2 * (2 ^ 10 * 224) =
      kernEnd.toNat + 2 ^ 12 * 992 := by omega
  have e2 : (kaToPa pgdKern).toNat + 2 ^ 2 * 768 + 2 ^ 2 * 224 =
      (kaToPa pgdKern).toNat + 2 ^ 2 * 992 := by omega
  rw [e1, e2]

/-- The directory is the one of `vmmInit`, which counts in tables. -/
theorem filled_pgd (h : Handover m₀ m pgdKern kernEnd) (i : Index) :
    filled m (kaToPa pgdKern) kernEnd (kaToPa pgdKern) i =
      (vmmInit (spaceAt m (kaToPa pgdKern)) kernEnd).pgd i := by
  obtain ⟨h1, h2, h3, h4, h5⟩ := h.numbers
  have hi := i.isLt
  have hw : wordAddr (kaToPa pgdKern) i = (kaToPa pgdKern).toNat + 2 ^ 2 * i.toNat := rfl
  rw [filled_apply h h.pgd_aligned, hw, h.boot.pgd_vmmInit, if_neg (by omega)]
  by_cases hr : 768 ≤ i.toNat ∧ i.toNat < 992
  · rw [if_pos (by omega), if_pos hr]
    congr 3
    omega
  · rw [if_neg (by omega), if_neg hr, h.empty]

/-- And so are the tables. -/
theorem filled_table (h : Handover m₀ m pgdKern kernEnd) (hn : n < pteCount) (j : Index) :
    filled m (kaToPa pgdKern) kernEnd (tableFrame kernEnd (768 + n)) j =
      linearWord (pteSize * n + j.toNat) := by
  obtain ⟨h1, h2, h3, h4, h5⟩ := h.numbers
  have hj := j.isLt
  have hc : pteCount = 224 := rfl
  have hs : pteSize = 2 ^ 10 := rfl
  have ht := h.boot.toNat_tableFrame (i := 768 + n) (by omega)
  have hw : wordAddr (tableFrame kernEnd (768 + n)) j =
      kernEnd.toNat + 2 ^ 12 * (768 + n) + 2 ^ 2 * j.toNat := by rw [wordAddr, ht]
  rw [filled_apply h (h.boot.isFrame (by omega) (by omega)).aligned, hw, if_pos (by omega), hs]
  exact congrArg linearWord (by omega)

/-- **No store leaves the page tables' room**, but for those into `pgd_kern`. -/
theorem filled_frame (h : Handover m₀ m pgdKern kernEnd) (hf : f &&& pageMask = f)
    (hne : f ≠ kaToPa pgdKern)
    (hout : f.toNat < kernEnd.toNat ∨ kernEnd.toNat + kvpageSize.toNat ≤ f.toNat) :
    filled m (kaToPa pgdKern) kernEnd f = m f := by
  obtain ⟨h1, h2, h3, h4, h5⟩ := h.numbers
  have hkv : kvpageSize.toNat = 2 ^ 12 * 1024 := rfl
  have hal := page_aligned_iff.1 hf
  have hne' : f.toNat ≠ (kaToPa pgdKern).toNat := fun hc => hne (BitVec.toNat_inj.1 hc)
  funext j
  have hj := j.isLt
  have hw : wordAddr f j = f.toNat + 2 ^ 2 * j.toNat := rfl
  rw [filled_apply h hf, hw, if_neg (by omega), if_neg (by omega)]

/-- Counting words instead of tables makes no difference to a walk. -/
theorem slot_filled (h : Handover m₀ m pgdKern kernEnd) (va : Word) :
    slot (spaceAt (filled m (kaToPa pgdKern) kernEnd) (kaToPa pgdKern)) va = kernWord va := by
  rw [← h.boot.slot_vmmInit]
  have hpgd (i : Index) : (spaceAt (filled m (kaToPa pgdKern) kernEnd) (kaToPa pgdKern)).pgd i =
      (vmmInit (spaceAt m (kaToPa pgdKern)) kernEnd).pgd i := filled_pgd h i
  by_cases h0 : (vmmInit (spaceAt m (kaToPa pgdKern)) kernEnd).pgd (pgdIndex va) &&& pageMask = 0
  · rw [slot_of_eq h0, slot_of_eq (by rw [hpgd, h0])]
  · have hf := h.boot.frame_vmmInit (pgdIndex va)
    have hr : 768 ≤ (pgdIndex va).toNat ∧ (pgdIndex va).toNat < 992 := by
      by_contra hc
      rw [if_neg hc] at hf
      exact h0 hf
    have hc : pteCount = 224 := rfl
    have hs : pteSize = 1024 := rfl
    have htable := filled_table h (n := (pgdIndex va).toNat - 768) (by omega) (pteIndex va)
    rw [if_pos hr, ← Nat.add_sub_cancel' hr.1] at hf
    rw [slot_of_ne h0, slot_of_ne (by rwa [hpgd]), hpgd, hf, vmmInit,
      h.boot.fillPte_phys _ (by omega) _ (Nat.le_refl _),
      if_pos (by rw [hc, hs]; omega), ← linearWord, ← htable]
    rfl

/-- **The linear mapping.** -/
theorem maps_filled (h : Handover m₀ m pgdKern kernEnd) (hva : kernbase ≤ va ∧ va < kerntop) :
    Maps (spaceAt (filled m (kaToPa pgdKern) kernEnd) (kaToPa pgdKern)) va
      ((va - kernbase) &&& pageMask) := by
  have hr := (mem_kern_iff va).1 hva
  have hpgd := filled_pgd h (pgdIndex va)
  rw [h.boot.pgd_vmmInit, if_pos hr, ← Nat.add_sub_cancel' hr.1] at hpgd
  have hc : pteCount = 224 := rfl
  have htable := filled_table h (n := (pgdIndex va).toNat - 768) (by omega) (pteIndex va)
  rw [← linear_frame hr.1, ← linearWord_frame]
  rw [linearWord] at htable ⊢
  exact maps_of_entries (h.boot.isFrame (by omega) (by omega)).aligned hpgd htable

/-! ### Reading the tables through themselves -/

theorem toNat_wordOf (hf : f &&& pageMask = f) (j : Index) :
    (f + 4 * j.setWidth 32).toNat = wordAddr f j := by
  rw [page_aligned_iff] at hf
  have hj := j.isLt
  have h4 : (4 : Word).toNat = 2 ^ 2 := rfl
  rw [BitVec.toNat_add, BitVec.toNat_mul, BitVec.toNat_setWidth, h4, wordAddr]
  omega

theorem load_elem (m : Phys) (hf : f &&& pageMask = f) (j : Index) :
    m.load (f + 4 * j.setWidth 32) = m f j := by
  have hal : 2 ^ 2 ∣ (f + 4 * j.setWidth 32).toNat := by
    rw [toNat_wordOf hf, wordAddr]
    rw [page_aligned_iff] at hf
    omega
  obtain ⟨h1, h2⟩ := (wordAddr_eq_iff hf hal).1 (toNat_wordOf hf j).symm
  rw [Phys.load, ← h1, ← h2]

/-- The kernel reads a page of its linear mapping where it lies. -/
theorem kload_filled (h : Handover m₀ m pgdKern kernEnd) (hf : f &&& pageMask = f)
    (hlt : f.toNat < 2 ^ 24) (j : Index) :
    kload (filled m (kaToPa pgdKern) kernEnd) (kaToPa pgdKern) (paToKa f + 4 * j.setWidth 32) =
      some (filled m (kaToPa pgdKern) kernEnd f j) := by
  have hk : kernbase.toNat = 2 ^ 22 * 768 := rfl
  have ht : kerntop.toNat = 2 ^ 22 * 992 := rfl
  have hj := j.isLt
  have hw := toNat_wordOf hf j
  have he : paToKa f + 4 * j.setWidth 32 = paToKa (f + 4 * j.setWidth 32) := add_right_comm ..
  have hva : (paToKa (f + 4 * j.setWidth 32)).toNat = 2 ^ 22 * 768 + wordAddr f j := by
    rw [paToKa, BitVec.toNat_add, hw, hk, wordAddr]
    omega
  have hmaps := @maps_filled _ _ _ _ (paToKa (f + 4 * j.setWidth 32)) h
    ⟨by rw [BitVec.le_def, hva, hk]; omega, by rw [BitVec.lt_def, hva, ht, wordAddr]; omega⟩
  rw [kload, he, hmaps.translate_eq (by rw [hva, hk]; omega), Option.map_some, paToKa,
    BitVec.add_sub_cancel, load_elem _ hf]

/-- `get_mapping` finds the directory and its tables where the directory maps them. -/
theorem getMappingAt_eq (h : Handover m₀ m pgdKern kernEnd) (va : Word) (p : Option Word) :
    getMappingAt (filled m (kaToPa pgdKern) kernEnd) (kaToPa pgdKern) pgdKern va p =
      some (getMapping (spaceAt (filled m (kaToPa pgdKern) kernEnd) (kaToPa pgdKern)) va p) := by
  obtain ⟨h1, h2, h3, h4, h5⟩ := h.numbers
  have hk : pgdKern = paToKa (kaToPa pgdKern) := (BitVec.sub_add_cancel ..).symm
  have hdir := kload_filled h h.pgd_aligned (by omega) (pgdIndex va)
  rw [← hk] at hdir
  have hpgd := filled_pgd h (pgdIndex va)
  have hframe := h.boot.frame_vmmInit (pgdIndex va)
  rw [← hpgd] at hframe
  unfold getMappingAt getMapping
  simp only [hdir, Option.bind_eq_bind, Option.bind_some, spaceAt, hframe]
  by_cases hr : 768 ≤ (pgdIndex va).toNat ∧ (pgdIndex va).toNat < 992
  · have hft := h.boot.isFrame (i := (pgdIndex va).toNat) (by omega) (by omega)
    simp only [if_pos hr, if_neg hft.ne_zero]
    rw [kload_filled h hft.aligned
      (by rw [h.boot.toNat_tableFrame (by omega)]; omega), Option.bind_some]
    simp only [Space.pte, kaToPa_paToKa]
    split
    · rfl
    · rfl
  · simp only [if_neg hr, if_true]
    rfl

end Installed

/-- `KMEMSIZE`. -/
def kmemsize : Word := 0x38000000

section Mapping

variable {m₀ m : Phys} {pgdKern kernEnd : Word}

/-- `pgd_kern` maps the bytes from `KERNBASE` on, and `get_mapping` says so. -/
theorem Handover.mapped (h : Handover m₀ m pgdKern kernEnd) {p : Word} (hp : p < kmemsize) :
    Maps (spaceAt (filled m (kaToPa pgdKern) kernEnd) (kaToPa pgdKern)) (kernbase + p)
        (p &&& pageMask) ∧
      ∀ x, getMappingAt (filled m (kaToPa pgdKern) kernEnd) (kaToPa pgdKern) pgdKern (kernbase + p)
        (some x) = some (1, some (p &&& pageMask)) := by
  have hk : kernbase.toNat = 2 ^ 22 * 768 := rfl
  have hm : kmemsize.toNat = 2 ^ 22 * 224 := rfl
  have hsub : kernbase + p - kernbase = p := add_sub_cancel_left kernbase p
  have hlt := BitVec.lt_def.1 hp
  have hadd : (kernbase + p).toNat = kernbase.toNat + p.toNat :=
    BitVec.toNat_add_of_lt (by omega)
  have hva : kernbase ≤ kernbase + p ∧ kernbase + p < kerntop := by
    rw [BitVec.le_def, BitVec.lt_def, hadd, show kerntop.toNat = 2 ^ 22 * 992 from rfl]
    omega
  have hmaps := maps_filled h hva
  rw [hsub] at hmaps
  refine ⟨hmaps, fun x => ?_⟩
  have hne : (p &&& pageMask) ||| pagePresent ||| pageWrite ≠ 0 := fun hc =>
    entry_present (p &&& pageMask) (by rw [hc]; rfl)
  rw [getMappingAt_eq h, getMapping_some, slot_filled h, kernWord, if_pos hva, hsub,
    answer_of_ne hne, frame_entry (by rw [BitVec.and_assoc, BitVec.and_self])]
  rfl

/-- In the first 16 MB the temporary tables say the same. -/
theorem Handover.agrees (h : Handover m₀ m pgdKern kernEnd) {va : Word} (hlo : kernbase ≤ va)
    (hhi : va < kernbase + 0x1000000) :
    Maps (spaceAt m pgdTmp) va ((va - kernbase) &&& pageMask) ∧
      translate (filled m (kaToPa pgdKern) kernEnd) (kaToPa pgdKern) va = translate m pgdTmp va := by
  have hk : kernbase.toNat = 2 ^ 22 * 768 := rfl
  have hlo' := BitVec.le_def.1 hlo
  have hhi' : va.toNat < 2 ^ 22 * 772 := BitVec.lt_def.1 hhi
  have htmp := (((tmpTables_mmapTmpPage m₀).frame h.tmp).maps (hk ▸ hlo') hhi')
  refine ⟨htmp, ?_⟩
  rw [htmp.translate_eq hlo', (maps_filled h ⟨hlo, ?_⟩).translate_eq hlo']
  rw [BitVec.lt_def, show kerntop.toNat = 2 ^ 22 * 992 from rfl]
  omega

/-- The words of the page tables lie between the kernel's end and `phy_pages`. -/
theorem Handover.pte_room (h : Handover m₀ m pgdKern kernEnd) {i : Nat}
    (hi : i < pteSize * pteCount) :
    kernEnd ≤ kaToPa (pteStart kernEnd + 4 * BitVec.ofNat 32 i) ∧
      (kaToPa (pteStart kernEnd + 4 * BitVec.ofNat 32 i)).toNat + 4 ≤
        kernEnd.toNat + kvpageSize.toNat ∧
      (pteStart kernEnd + 4 * BitVec.ofNat 32 i).toNat + 4 ≤ (phyPages kernEnd).toNat := by
  obtain ⟨h1, h2, h3, h4, h5⟩ := h.numbers
  have hk : kernbase.toNat = 2 ^ 22 * 768 := rfl
  have hs : pteSize * pteCount = 2 ^ 10 * 224 := rfl
  have hstart : (pteStart kernEnd).toNat = 2 ^ 22 * 768 + (kernEnd.toNat + 2 ^ 12 * 768) := by
    have h4 : (4 * (BitVec.ofNat 32 pteSize * (pgdIndex kernbase).setWidth 32) : Word).toNat =
      2 ^ 12 * 768 := rfl
    rw [pteStart, pteAddr, BitVec.toNat_add, BitVec.toNat_add, h4, hk]
    omega
  have haddr : (pteStart kernEnd + 4 * BitVec.ofNat 32 i).toNat =
      2 ^ 22 * 768 + (kernEnd.toNat + 2 ^ 12 * 768) + 2 ^ 2 * i := by
    rw [toNat_elem (by omega), hstart]
  have hpa : (kaToPa (pteStart kernEnd + 4 * BitVec.ofNat 32 i)).toNat =
      kernEnd.toNat + 2 ^ 12 * 768 + 2 ^ 2 * i := by
    rw [kaToPa, BitVec.toNat_sub_of_le (by rw [BitVec.le_def, haddr, hk]; omega), haddr, hk]
    omega
  have hkv : kvpageSize.toNat = 2 ^ 22 := rfl
  have hphy : (phyPages kernEnd).toNat = 2 ^ 22 * 768 + (kernEnd.toNat + 2 ^ 22) := by
    rw [phyPages, BitVec.toNat_add, BitVec.toNat_add, hk, hkv]
    omega
  refine ⟨?_, ?_, ?_⟩
  · rw [BitVec.le_def, hpa]
    omega
  · rw [hpa, hkv]
    omega
  · rw [haddr, hphy]
    omega

end Mapping

/-- **The kernel's linear mapping and its hand-over.** `vmm_init` runs through without a fault.
Afterwards `pgd_kern` maps `KMEMSIZE` bytes from `KERNBASE` on to the first physical memory, for
writing too, and `get_mapping` says so and finds nothing else; in the first 16 MB the translation is
the one the temporary tables gave. All words of the page tables were stored below `phy_pages`, and
no other page but `pgd_kern` has changed. Left out is the word that `register_interrupt_handler`
writes to the table of handlers before the loops. -/
theorem linear_mapping {m₀ m : Phys} {pgdKern kernEnd : Word}
    (h : Handover m₀ m pgdKern kernEnd) :
    ∃ m', vmmInitAt m pgdTmp pgdKern kernEnd = some m' ∧
      (∀ p < kmemsize,
        Maps (spaceAt m' (kaToPa pgdKern)) (kernbase + p) (p &&& pageMask) ∧
        ∀ x, getMappingAt m' (kaToPa pgdKern) pgdKern (kernbase + p) (some x) =
          some (1, some (p &&& pageMask))) ∧
      (∀ va x, ¬ (kernbase ≤ va ∧ va < kernbase + kmemsize) →
        getMappingAt m' (kaToPa pgdKern) pgdKern va x = some (0, x)) ∧
      (∀ va, kernbase ≤ va → va < kernbase + 0x1000000 →
        Maps (spaceAt m pgdTmp) va ((va - kernbase) &&& pageMask) ∧
        translate m' (kaToPa pgdKern) va = translate m pgdTmp va) ∧
      (∀ i < pteSize * pteCount,
        kernEnd ≤ kaToPa (pteStart kernEnd + 4 * BitVec.ofNat 32 i) ∧
        (kaToPa (pteStart kernEnd + 4 * BitVec.ofNat 32 i)).toNat + 4 ≤
          kernEnd.toNat + kvpageSize.toNat ∧
        (pteStart kernEnd + 4 * BitVec.ofNat 32 i).toNat + 4 ≤ (phyPages kernEnd).toNat) ∧
      ∀ f, f &&& pageMask = f → f ≠ kaToPa pgdKern →
        f.toNat < kernEnd.toNat ∨ kernEnd.toNat + kvpageSize.toNat ≤ f.toNat → m' f = m f := by
  refine ⟨_, h.vmmInitAt_eq, fun p hp => h.mapped hp, fun va x hva => ?_,
    fun va hlo hhi => h.agrees hlo hhi, fun i hi => h.pte_room hi,
    fun f hf hne hout => filled_frame h hf hne hout⟩
  have htop : kernbase + kmemsize = kerntop := rfl
  rw [htop] at hva
  rw [getMappingAt_eq h, getMapping_eq, slot_filled h, kernWord, if_neg hva,
    if_neg fun hc => hc.1 rfl]

/-- A kernel of 1 MB with `pgd_kern` in it, in a memory with nothing else but the temporary
tables. -/
def bootMem : Phys := fun f =>
  if f.toNat < 2 ^ 12 * 7 then mmapTmpPage (fun _ _ => 0) f else fun _ => 0

theorem bootMem_handover : Handover (fun _ _ => 0) bootMem 0xC0150000 0x200000 where
  tmp _ hf := if_pos hf
  empty i := by
    have hout : ¬ (kaToPa 0xC0150000).toNat < 2 ^ 12 * 7 := by decide
    rw [bootMem, if_neg hout]
  pgd_aligned := by decide
  kern_start := by decide
  kern_end := by decide
  aligned := by decide
  room := by decide

theorem linear_mapping_bootMem : ∃ m', vmmInitAt bootMem pgdTmp 0xC0150000 0x200000 = some m' ∧
    getMappingAt m' 0x150000 0xC0150000 0xC0123456 (some 0) = some (1, some 0x123000) := by
  obtain ⟨m', hm, hmap, -⟩ := linear_mapping bootMem_handover
  exact ⟨m', hm, (hmap 0x123456 (by decide)).2 0⟩

end Hurlex.Vmm
