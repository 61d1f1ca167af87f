import Hurlex.Mm.Pmm
import Hurlex.String

/-!
# Setting up physical memory (`arch/i386/mm/pmm.c`)

`phy_pages_init` walks over the memory map twice. The first walk sizes the array of descriptors, which
lies behind the kernel and its page tables; the second counts the pages that are left behind that
array. What one walk has to do with the other is left to the assertions at the end.

A `page_t *` is an index into `phy_pages`, as everywhere; where the array itself lies in memory is
`phyPages`. Of a map entry the 64-bit halves and the type are left out, which nothing here reads.

**`phyPagesInit_consistent`**: if the assertions hold, the pages are those of `pmm_addr_start` up to
`pmm_addr_end`, in RAM, with nothing else on them.
-/

namespace Hurlex

/-- `KVPAGE_SIZE`: the kernel's page tables, behind the kernel. -/
def kvpageSize : Nat := 0x400000

/-- `sizeof(page_t)`. -/
def sizeofPage : Nat := 20

/-- An entry of `e820map_t`. -/
structure E820Entry where
  addrLow : Nat
  lengthLow : Nat

/-- What `phy_pages_init` leaves: the file's static variables and the memory. -/
structure PmmState where
  phyPages : Nat
  phyPagesCount : Nat
  pmmAddrStart : Nat
  pmmAddrEnd : Nat
  mem : Nat → BitVec 8

/-- `phy_pages`, as the linker sets it. -/
def phyPagesAddr (kernEnd : Nat) : Nat := u32 (u32 (kernEnd + kernbase) + kvpageSize)

/-- The first walk, with `phy_mem_length` so far. -/
def phyMemLength (length : Nat) : List E820Entry → Nat
  | [] => length
  | e :: map =>
    if e.addrLow > zoneHighmemAddr then length
    else if u32 (e.addrLow + e.lengthLow) > zoneHighmemAddr then zoneHighmemAddr
    else phyMemLength (u32 (length + e.lengthLow)) map

def pagesMemLength (map : List E820Entry) : Nat :=
  u32 (sizeofPage * (phyMemLength 0 map / pageSize))

theorem u32_add_pageSize {a endAddr : Nat} (hend : endAddr ≤ zoneHighmemAddr) (h : a < endAddr) :
    u32 (a + pageSize) = a + pageSize := by
  refine u32_of_lt ?_
  simp only [zoneHighmemAddr, pageSize] at *
  omega

/-- `for (addr = start_addr; addr < end_addr; addr += PMM_PAGE_SIZE) phy_pages_count++`. The end is
low enough for `addr` not to wrap. -/
def countPages (endAddr : Nat) (hend : endAddr ≤ zoneHighmemAddr) (addr count : Nat) : Nat :=
  if addr < endAddr then countPages endAddr hend (u32 (addr + pageSize)) (u32 (count + 1))
  else count
termination_by endAddr - addr
decreasing_by
  rename_i h
  rw [u32_add_pageSize hend h]
  simp only [pageSize]
  omega

/-- `end_addr` of an entry. -/
def clipEnd (e : E820Entry) : Nat :=
  if u32 (e.addrLow + e.lengthLow) > zoneHighmemAddr then zoneHighmemAddr
  else u32 (e.addrLow + e.lengthLow)

theorem clipEnd_le (e : E820Entry) : clipEnd e ≤ zoneHighmemAddr := by
  unfold clipEnd
  split <;> omega

/-- The second walk, with `phy_pages_count` and `pmm_addr_end` so far. -/
def scanPages (pmmAddrStart : Nat) : Nat × Nat → List E820Entry → Nat × Nat
  | acc, [] => acc
  | (count, _), e :: map =>
    let startAddr := if e.addrLow < pmmAddrStart then pmmAddrStart else e.addrLow
    scanPages pmmAddrStart (countPages (clipEnd e) (clipEnd_le e) startAddr count, clipEnd e) map

/-- Behind the descriptors, on a page boundary. -/
def firstFrame (kernEnd pagesMemLength : Nat) : Nat :=
  u32 (u32 (u32Sub (phyPagesAddr kernEnd) kernbase + pagesMemLength) + pageSize) /
    pageSize * pageSize

def phyPagesInit (kernEnd : Nat) (map : List E820Entry) (mem : Nat → BitVec 8) :
    Kern PmmState := do
  let mem := bzero mem (phyPagesAddr kernEnd) (pagesMemLength map)
  let pmmAddrStart := firstFrame kernEnd (pagesMemLength map)
  let (phyPagesCount, pmmAddrEnd) := scanPages pmmAddrStart (0, 0) map
  let first ← pageToAddr pmmAddrStart 0
  kassert (pmmAddrStart == first) "phy_pages_init error pmm_start != &page[0]"
  let last ← pageToAddr pmmAddrStart (u32Sub phyPagesCount 1)
  kassert (u32Sub pmmAddrEnd pageSize == last) "phy_pages_init error pmm_end != &page[n-1]"
  let page ← addrToPage pmmAddrStart (← pageToAddr pmmAddrStart 0)
  kassert (0 == page) "phy_pages_init error addr_to_page error"
  let page ← addrToPage pmmAddrStart (← pageToAddr pmmAddrStart 1)
  kassert (1 == page) "phy_pages_init error addr_to_page error"
  return { phyPages := phyPagesAddr kernEnd, phyPagesCount, pmmAddrStart, pmmAddrEnd, mem }

/-! ## What the assertions say -/

variable {kernEnd length : Nat} {map : List E820Entry} {mem : Nat → BitVec 8} {s : PmmState}

theorem pageToAddr_eq_ok {start i a : Nat} :
    pageToAddr start i = .ok a ↔ start ≠ 0 ∧ u32 (start + u32 (i * pageSize)) = a := by
  unfold pageToAddr kassert
  by_cases h : start = 0
  · simp [h, bind, Except.bind]
  · simp [h, bind, Except.bind, pure, Except.pure]

/-- The states the set-up can end in: the walks' results, tied together by the second assertion. -/
theorem phyPagesInit_eq_ok (h : phyPagesInit kernEnd map mem = .ok s) :
    s = ⟨phyPagesAddr kernEnd, s.phyPagesCount, firstFrame kernEnd (pagesMemLength map),
        s.pmmAddrEnd, bzero mem (phyPagesAddr kernEnd) (pagesMemLength map)⟩ ∧
      scanPages (firstFrame kernEnd (pagesMemLength map)) (0, 0) map =
        (s.phyPagesCount, s.pmmAddrEnd) ∧
      u32Sub s.pmmAddrEnd pageSize =
        u32 (s.pmmAddrStart + u32 (u32Sub s.phyPagesCount 1 * pageSize)) := by
  unfold phyPagesInit at h
  dsimp only at h
  obtain ⟨first, hfirst, h⟩ := Kern.bind_eq_ok.1 h
  obtain ⟨_, -, h⟩ := Kern.bind_eq_ok.1 h
  obtain ⟨last, hlast, h⟩ := Kern.bind_eq_ok.1 h
  obtain ⟨_, hend, h⟩ := Kern.bind_eq_ok.1 h
  obtain ⟨_, -, h⟩ := Kern.bind_eq_ok.1 h
  obtain ⟨_, -, h⟩ := Kern.bind_eq_ok.1 h
  obtain ⟨_, -, h⟩ := Kern.bind_eq_ok.1 h
  obtain ⟨_, -, h⟩ := Kern.bind_eq_ok.1 h
  obtain ⟨_, -, h⟩ := Kern.bind_eq_ok.1 h
  obtain ⟨_, -, h⟩ := Kern.bind_eq_ok.1 h
  obtain rfl := Except.ok.inj h
  refine ⟨rfl, rfl, ?_⟩
  rw [(pageToAddr_eq_ok.1 hlast).2]
  exact beq_iff_eq.1 (kassert_eq_ok.1 hend)

/-- The pages from `addr` up to `endAddr`, the last one cut off at `endAddr`. -/
def pagesBetween (addr endAddr : Nat) : Nat := (endAddr - addr + (pageSize - 1)) / pageSize

theorem pagesBetween_of_lt {addr endAddr : Nat} (h : addr < endAddr) :
    pagesBetween addr endAddr = pagesBetween (addr + pageSize) endAddr + 1 := by
  simp only [pagesBetween, pageSize]
  omega

theorem pagesBetween_of_le {addr endAddr : Nat} (h : endAddr ≤ addr) :
    pagesBetween addr endAddr = 0 := by
  simp only [pagesBetween, pageSize]
  omega

theorem countPages_eq {endAddr : Nat} (hend : endAddr ≤ zoneHighmemAddr) (addr count : Nat) :
    count + pagesBetween addr endAddr < 2 ^ 32 →
      countPages endAddr hend addr count = count + pagesBetween addr endAddr := by
  induction addr, count using countPages.induct endAddr hend with
  | case1 addr count hlt ih =>
    intro hroom
    rw [pagesBetween_of_lt hlt, ← Nat.add_assoc, Nat.add_right_comm] at hroom ⊢
    have hcount : u32 (count + 1) = count + 1 :=
      u32_of_lt (Nat.lt_of_le_of_lt (Nat.le_add_right ..) hroom)
    rw [u32_add_pageSize hend hlt, hcount] at ih
    rw [countPages, if_pos hlt, u32_add_pageSize hend hlt, hcount, ih hroom]
  | case2 addr count hge =>
    intro _
    rw [countPages, if_neg hge, pagesBetween_of_le (Nat.le_of_not_lt hge), Nat.add_zero]

/-- The second assertion, with no pages counted too: the counted pages end at `pmm_addr_end`. -/
theorem end_of_assert {start count endAddr : Nat} (hend : endAddr < 2 ^ 31)
    (hlast : start + count * pageSize < 2 ^ 32)
    (h : u32Sub endAddr pageSize = u32 (start + u32 (u32Sub count 1 * pageSize))) :
    endAddr = start + count * pageSize := by
  simp only [pageSize] at *
  rcases Nat.eq_zero_or_pos count with rfl | hpos
  · have hsub : u32 (u32Sub 0 1 * 0x1000) = 2 ^ 32 - 0x1000 := by decide
    rw [hsub, u32Sub, u32] at h
    omega
  · have hsub : u32Sub count 1 = count - 1 := u32Sub_of_le (by omega) hpos
    obtain ⟨k, rfl⟩ : ∃ k, count = k + 1 := ⟨count - 1, (Nat.sub_add_cancel hpos).symm⟩
    rw [hsub, Nat.add_sub_cancel] at h
    rw [Nat.succ_mul] at hlast ⊢
    generalize k * 0x1000 = last at hlast h ⊢
    have hsum : start + last < 2 ^ 32 := by omega
    have hlow : last < 2 ^ 32 := by omega
    rw [u32_of_lt hlow, u32_of_lt hsum, u32Sub] at h
    omega

/-! ## One RAM entry -/

/-- The memory map of a machine with all its RAM in one piece. -/
def oneRam (length : Nat) : List E820Entry := [⟨ramKernelStart, length⟩]

/-- The array of descriptors ends below 4 GB. -/
def ArrayFits (kernEnd length : Nat) : Prop :=
  kernEnd + kernbase + kvpageSize + pagesMemLength (oneRam length) < 2 ^ 32

instance (kernEnd length : Nat) : Decidable (ArrayFits kernEnd length) :=
  inferInstanceAs (Decidable (_ < _))

/-- `a` is a byte of the frame of page `i`. -/
def PmmState.InFrame (s : PmmState) (i a : Nat) : Prop :=
  s.pmmAddrStart + i * pageSize ≤ a ∧ a < s.pmmAddrStart + (i + 1) * pageSize

/-- The managed pages are those of `pmm_addr_start` up to `pmm_addr_end`, all of them free to hand
out. -/
structure Consistent (kernEnd length : Nat) (s : PmmState) : Prop where
  aligned : pageSize ∣ s.pmmAddrStart
  frames : ∀ i < s.phyPagesCount,
    pageToAddr s.pmmAddrStart i = .ok (s.pmmAddrStart + i * pageSize)
  covers : s.pmmAddrStart + s.phyPagesCount * pageSize = s.pmmAddrEnd
  inRam : ∀ i < s.phyPagesCount, ∀ a, s.InFrame i a →
    ramKernelStart ≤ a ∧ a < ramKernelStart + length
  low : ∀ i < s.phyPagesCount, ∀ a, s.InFrame i a → a < zoneHighmemAddr
  offKernel : ∀ i < s.phyPagesCount, ∀ a, s.InFrame i a → ¬ (ramKernelStart ≤ a ∧ a < kernEnd)
  offTables : ∀ i < s.phyPagesCount, ∀ a, s.InFrame i a →
    ¬ (kernEnd ≤ a ∧ a < kernEnd + kvpageSize)
  offArray : ∀ i < s.phyPagesCount, ∀ a, s.InFrame i a →
    ¬ (s.phyPages ≤ a + kernbase ∧ a + kernbase < s.phyPages + pagesMemLength (oneRam length))
  zeroed : ∀ i < s.phyPagesCount, ∀ k < sizeofPage,
    i * sizeofPage + k < pagesMemLength (oneRam length) ∧
      s.mem (s.phyPages + (i * sizeofPage + k)) = 0
  lookup : ∀ a, s.pmmAddrStart ≤ a → a < s.pmmAddrEnd → ∃ i < s.phyPagesCount,
    addrToPage s.pmmAddrStart a = .ok i ∧
      pageToAddr s.pmmAddrStart i = .ok (a / pageSize * pageSize)

theorem phyMemLength_oneRam (hlen : length < 2 ^ 32) : phyMemLength 0 (oneRam length) =
    if u32 (ramKernelStart + length) > zoneHighmemAddr then zoneHighmemAddr else length := by
  have hzero : u32 (0 + length) = length := by rw [Nat.zero_add, u32_of_lt hlen]
  have hram : ¬ ramKernelStart > zoneHighmemAddr := by decide
  rw [oneRam, phyMemLength, if_neg hram, phyMemLength, hzero]

theorem pagesMemLength_oneRam (hlen : length < 2 ^ 32) : pagesMemLength (oneRam length) =
    sizeofPage * (phyMemLength 0 (oneRam length) / pageSize) := by
  have hle : phyMemLength 0 (oneRam length) < 2 ^ 32 := by
    rw [phyMemLength_oneRam hlen]
    split
    · decide
    · exact hlen
  refine u32_of_lt ?_
  simp only [sizeofPage, pageSize]
  omega

theorem ArrayFits.phyPagesAddr_eq (h : ArrayFits kernEnd length) :
    phyPagesAddr kernEnd = kernEnd + kernbase + kvpageSize := by
  have hfit := Nat.lt_of_le_of_lt (Nat.le_add_right _ _) h
  have hbase := Nat.lt_of_le_of_lt (Nat.le_add_right _ _) hfit
  rw [phyPagesAddr, u32_of_lt hbase, u32_of_lt hfit]

/-- The first frame is the first one wholly behind the descriptors, or the one after it. -/
theorem ArrayFits.firstFrame_eq (h : ArrayFits kernEnd length) :
    firstFrame kernEnd (pagesMemLength (oneRam length)) =
      (kernEnd + kvpageSize + pagesMemLength (oneRam length) + pageSize) / pageSize * pageSize := by
  have hfit : kernEnd + kernbase + kvpageSize < 2 ^ 32 := Nat.lt_of_le_of_lt (Nat.le_add_right _ _) h
  have hbound : kernEnd + kvpageSize + pagesMemLength (oneRam length) < 2 ^ 30 := by
    unfold ArrayFits kernbase at h
    omega
  have hsub : u32Sub (kernEnd + kernbase + kvpageSize) kernbase = kernEnd + kvpageSize := by
    rw [u32Sub_of_le hfit (by omega)]
    omega
  have hpage : pageSize = 2 ^ 12 := rfl
  have hdesc : u32 (kernEnd + kvpageSize + pagesMemLength (oneRam length)) =
      kernEnd + kvpageSize + pagesMemLength (oneRam length) := u32_of_lt (by omega)
  rw [firstFrame, h.phyPagesAddr_eq, hsub, hdesc, u32_of_lt (by omega)]

theorem pageSize_dvd_firstFrame (kernEnd pagesMemLength : Nat) :
    pageSize ∣ firstFrame kernEnd pagesMemLength := Nat.dvd_mul_left _ _

/-- The frames start behind the kernel, its page tables and the descriptors. -/
theorem ArrayFits.behind (h : ArrayFits kernEnd length) :
    kernEnd + kvpageSize + pagesMemLength (oneRam length) ≤
      firstFrame kernEnd (pagesMemLength (oneRam length)) ∧
      firstFrame kernEnd (pagesMemLength (oneRam length)) < 2 ^ 31 := by
  rw [h.firstFrame_eq]
  unfold ArrayFits kernbase at h
  simp only [pageSize]
  omega

/-- What is left when the assertions hold: `pmm_addr_end` is where the counted pages end. -/
theorem oneRam_accepted (hfit : ArrayFits kernEnd length)
    (h : phyPagesInit kernEnd (oneRam length) mem = .ok s) :
    s.pmmAddrStart = firstFrame kernEnd (pagesMemLength (oneRam length)) ∧
      s.pmmAddrEnd = clipEnd ⟨ramKernelStart, length⟩ ∧
      s.phyPagesCount = pagesBetween (max ramKernelStart s.pmmAddrStart) s.pmmAddrEnd ∧
      s.pmmAddrEnd = s.pmmAddrStart + s.phyPagesCount * pageSize := by
  obtain ⟨hs, hscan, hassert⟩ := phyPagesInit_eq_ok h
  have hstart : s.pmmAddrStart = firstFrame kernEnd (pagesMemLength (oneRam length)) := by
    rw [hs]
  rw [← hstart, oneRam, scanPages, scanPages] at hscan
  have hlow := clipEnd_le ⟨ramKernelStart, length⟩
  have hmax : (if ramKernelStart < s.pmmAddrStart then s.pmmAddrStart else ramKernelStart) =
      max ramKernelStart s.pmmAddrStart := by
    split <;> omega
  have hend : s.pmmAddrEnd = clipEnd ⟨ramKernelStart, length⟩ := (Prod.mk.inj hscan).2.symm
  have hsmall : pagesBetween (max ramKernelStart s.pmmAddrStart) s.pmmAddrEnd ≤ 2 ^ 18 := by
    rw [hend]
    unfold zoneHighmemAddr at hlow
    simp only [pagesBetween, pageSize]
    omega
  have hcount : s.phyPagesCount = pagesBetween (max ramKernelStart s.pmmAddrStart) s.pmmAddrEnd := by
    rw [← (Prod.mk.inj hscan).1, hmax, hend, countPages_eq, Nat.zero_add]
    rw [← hend]
    omega
  refine ⟨hstart, hend, hcount, end_of_assert ?_ ?_ hassert⟩
  · rw [hend]
    exact Nat.lt_of_le_of_lt hlow (by decide)
  · have hbehind := hfit.behind.2
    rw [← hstart] at hbehind
    rw [hcount]
    simp only [pageSize]
    omega

/-- With a page counted, the frames lie in the RAM entry and each of them has a descriptor. -/
theorem oneRam_range (hlen : length < 2 ^ 32) (hfit : ArrayFits kernEnd length)
    (h : phyPagesInit kernEnd (oneRam length) mem = .ok s) (hpos : 0 < s.phyPagesCount) :
    ramKernelStart ≤ s.pmmAddrStart ∧ s.pmmAddrEnd ≤ ramKernelStart + length ∧
      s.phyPagesCount * sizeofPage ≤ pagesMemLength (oneRam length) := by
  obtain ⟨-, hend, hcount, hcovers⟩ := oneRam_accepted hfit h
  have hlt : max ramKernelStart s.pmmAddrStart < s.pmmAddrEnd := by
    by_contra hle
    rw [pagesBetween_of_le (Nat.le_of_not_lt hle)] at hcount
    omega
  -- a start below the kernel would leave the last page short of the end
  have hstart : ramKernelStart ≤ s.pmmAddrStart := by
    by_contra hlow
    obtain ⟨k, hk⟩ := (oneRam_accepted hfit h).1 ▸ pageSize_dvd_firstFrame ..
    rw [Nat.max_eq_left (by omega)] at hcount hlt
    simp only [pagesBetween, pageSize, ramKernelStart] at *
    omega
  have hwrap : u32 (ramKernelStart + length) = ramKernelStart + length := by
    refine u32_of_lt (Nat.lt_of_not_le fun hle => ?_)
    have hsmall : u32 (ramKernelStart + length) < ramKernelStart := by
      simp only [u32, ramKernelStart] at hle ⊢
      omega
    have hram : ramKernelStart ≤ zoneHighmemAddr := by decide
    rw [clipEnd, if_neg (by dsimp only; omega)] at hend
    dsimp only at hend
    omega
  rw [pagesMemLength_oneRam hlen, phyMemLength_oneRam hlen, Nat.mul_comm sizeofPage]
  rw [clipEnd] at hend
  dsimp only at hend
  rw [hwrap] at hend ⊢
  have hroom : s.phyPagesCount ≤ (s.pmmAddrEnd - ramKernelStart) / pageSize := by
    rw [Nat.le_div_iff_mul_le (by decide)]
    omega
  split at hend
  · rename_i hclip
    rw [if_pos hclip]
    refine ⟨hstart, by omega, Nat.mul_le_mul_right _ (hroom.trans (Nat.div_le_div_right ?_))⟩
    omega
  · rename_i hclip
    rw [if_neg hclip]
    refine ⟨hstart, by omega, Nat.mul_le_mul_right _ (hroom.trans (Nat.div_le_div_right ?_))⟩
    omega

/-- The descriptors of the array are cleared. -/
theorem bzero_array {dest len off : Nat} (hroom : dest + len < 2 ^ 32) (hoff : off < len) :
    bzero mem dest len (dest + off) = 0 := by
  refine if_pos ?_
  rw [u32Sub_of_le (by omega) (by omega), Nat.add_sub_cancel_left]
  exact hoff

theorem addrToPage_page (start a : Nat) :
    addrToPage start a = addrToPage start (a / pageSize * pageSize) := by
  unfold addrToPage
  rw [Nat.mul_div_cancel _ (by decide)]

/-- The page a managed address is in. -/
theorem PhyMem.index_of_mem (M : PhyMem) {a : Nat} (h1 : M.start ≤ a)
    (h2 : a < M.start + M.count * pageSize) :
    M.index a < M.count ∧ M.addr (M.index a) = a / pageSize * pageSize := by
  obtain ⟨k, hk⟩ := M.aligned
  unfold PhyMem.index PhyMem.addr
  constructor
  · rw [Nat.div_lt_iff_lt_mul (by decide)]
    omega
  · simp only [pageSize] at *
    omega

/-- What is handed to the memory manager is managed memory, as soon as there is a page. -/
theorem exists_phyMem (hlen : length < 2 ^ 32) (hfit : ArrayFits kernEnd length)
    (h : phyPagesInit kernEnd (oneRam length) mem = .ok s) (hpos : 0 < s.phyPagesCount) :
    ∃ M : PhyMem, M.start = s.pmmAddrStart ∧ M.count = s.phyPagesCount := by
  obtain ⟨hstart, hend, -, hcovers⟩ := oneRam_accepted hfit h
  have hal : pageSize ∣ s.pmmAddrStart := hstart ▸ pageSize_dvd_firstFrame ..
  have hhigh : s.pmmAddrStart + s.phyPagesCount * pageSize ≤ zoneHighmemAddr := by
    rw [← hcovers, hend]
    exact clipEnd_le _
  exact ⟨⟨s.pmmAddrStart, s.phyPagesCount, hal, (oneRam_range hlen hfit h hpos).1, hpos, hhigh⟩,
    rfl, rfl⟩

/-- **Physical memory is set up consistently whenever the set-up is accepted.** -/
theorem phyPagesInit_consistent (hlen : length < 2 ^ 32) (hfit : ArrayFits kernEnd length)
    (h : phyPagesInit kernEnd (oneRam length) mem = .ok s) : Consistent kernEnd length s := by
  obtain ⟨hstart, hend, -, hcovers⟩ := oneRam_accepted hfit h
  obtain ⟨hs, -, -⟩ := phyPagesInit_eq_ok h
  obtain ⟨hbehind, hlow⟩ := hfit.behind
  rw [← hstart] at hbehind hlow
  have hhigh : s.pmmAddrEnd ≤ zoneHighmemAddr := hend ▸ clipEnd_le _
  have hzone : zoneHighmemAddr < 2 ^ 30 := by decide
  have hal : pageSize ∣ s.pmmAddrStart := hstart ▸ pageSize_dvd_firstFrame ..
  have hphy : s.phyPages = kernEnd + kernbase + kvpageSize := by
    rw [hs]
    exact hfit.phyPagesAddr_eq
  have hinside : ∀ i < s.phyPagesCount, ∀ a, s.InFrame i a →
      s.pmmAddrStart ≤ a ∧ a < s.pmmAddrEnd := by
    intro i hi a ⟨h1, h2⟩
    have hle : (i + 1) * pageSize ≤ s.phyPagesCount * pageSize := Nat.mul_le_mul_right _ hi
    omega
  have hphyMem := exists_phyMem hlen hfit h
  refine ⟨hal, ?_, hcovers.symm, ?_, ?_, ?_, ?_, ?_, ?_, ?_⟩
  · intro i hi
    obtain ⟨M, hM, hcount⟩ := hphyMem (Nat.zero_lt_of_lt hi)
    rw [← hM]
    exact M.pageToAddr_eq (hcount ▸ hi.le)
  · intro i hi a ha
    obtain ⟨h1, h2, -⟩ := oneRam_range hlen hfit h (Nat.zero_lt_of_lt hi)
    have := hinside i hi a ha
    omega
  · intro i hi a ha
    have := hinside i hi a ha
    omega
  · intro i hi a ha
    have := hinside i hi a ha
    omega
  · intro i hi a ha
    have := hinside i hi a ha
    omega
  · intro i hi a ha
    have := hinside i hi a ha
    rw [hphy]
    omega
  · intro i hi k hk
    have hoff : i * sizeofPage + k < pagesMemLength (oneRam length) := by
      have hle : (i + 1) * sizeofPage ≤ s.phyPagesCount * sizeofPage := Nat.mul_le_mul_right _ hi
      have hmem := (oneRam_range hlen hfit h (Nat.zero_lt_of_lt hi)).2.2
      rw [Nat.succ_mul] at hle
      omega
    refine ⟨hoff, ?_⟩
    have hroom : phyPagesAddr kernEnd + pagesMemLength (oneRam length) < 2 ^ 32 := by
      rw [hfit.phyPagesAddr_eq]
      exact hfit
    rw [hs]
    exact bzero_array hroom hoff
  · intro a h1 h2
    have hpos : s.phyPagesCount ≠ 0 := by
      intro h0
      rw [h0] at hcovers
      omega
    obtain ⟨M, hM, hcount⟩ := hphyMem (Nat.pos_of_ne_zero hpos)
    rw [← hM] at h1 hcovers ⊢
    rw [← hcount] at hcovers ⊢
    obtain ⟨hi, hpage⟩ := M.index_of_mem h1 (hcovers ▸ h2)
    refine ⟨M.index a, hi, ?_, ?_⟩
    · rw [addrToPage_page, ← hpage, M.addrToPage_eq hi.le]
    · rw [← hpage, M.pageToAddr_eq hi.le]

/-- `&phy_pages[n-1]`, with no page counted too. -/
theorem pageToAddr_last {start count : Nat} (hpos : start ≠ 0)
    (hlt : start + count * pageSize < 2 ^ 32) (hroom : pageSize ≤ start) :
    pageToAddr start (u32Sub count 1) = .ok (u32Sub (start + count * pageSize) pageSize) := by
  have hend : u32Sub (start + count * pageSize) pageSize =
      start + count * pageSize - pageSize := u32Sub_of_le hlt (by omega)
  rw [hend]
  refine pageToAddr_eq_ok.2 ⟨hpos, ?_⟩
  rcases Nat.eq_zero_or_pos count with rfl | hcount
  · have hsub : u32 (u32Sub 0 1 * pageSize) = 2 ^ 32 - pageSize := by decide
    rw [hsub, u32]
    simp only [pageSize] at *
    omega
  · obtain ⟨k, rfl⟩ : ∃ k, count = k + 1 := ⟨count - 1, (Nat.sub_add_cancel hcount).symm⟩
    have hsub : u32Sub (k + 1) 1 = k := u32Sub_of_le (by simp only [pageSize] at hlt; omega) hcount
    rw [Nat.succ_mul] at hlt ⊢
    rw [hsub, u32_of_lt (n := k * pageSize) (by omega), u32_of_lt (by omega)]
    omega

/-- The assertions hold if the second walk ends where its pages do, also if there are none. -/
theorem phyPagesInit_of_covers {map : List E820Entry} {start count : Nat}
    (hstart : firstFrame kernEnd (pagesMemLength map) = start) (hram : ramKernelStart ≤ start)
    (hscan : scanPages start (0, 0) map = (count, start + count * pageSize))
    (hlt : start + count * pageSize ≤ zoneHighmemAddr) :
    phyPagesInit kernEnd map mem = .ok ⟨phyPagesAddr kernEnd, count, start,
      start + count * pageSize, bzero mem (phyPagesAddr kernEnd) (pagesMemLength map)⟩ := by
  have hal : pageSize ∣ start := hstart ▸ pageSize_dvd_firstFrame ..
  have hzero : 0 < ramKernelStart := by decide
  have hpos : start ≠ 0 := by omega
  have hzone : zoneHighmemAddr + pageSize < 2 ^ 32 := by decide
  have hroom : pageSize ≤ ramKernelStart := by decide
  obtain ⟨ha0, hp0⟩ := page_addr_page (i := 0) hal hpos (by omega)
  obtain ⟨ha1, hp1⟩ := page_addr_page (i := 1) hal hpos (by omega)
  have hlast : pageToAddr start (u32Sub count 1) = .ok (u32Sub (start + count * pageSize) pageSize) :=
    pageToAddr_last hpos (by omega) (by omega)
  have hfirst : start + 0 * pageSize = start := by rw [Nat.zero_mul, Nat.add_zero]
  unfold phyPagesInit
  dsimp only
  rw [hstart, hscan, ha0, ha1, hlast]
  refine Kern.bind_eq_ok.2 ⟨_, rfl, Kern.bind_eq_ok.2 ⟨(), ?_, ?_⟩⟩
  · rw [kassert_eq_ok, hfirst, beq_self_eq_true]
  refine Kern.bind_eq_ok.2 ⟨_, rfl, Kern.bind_eq_ok.2 ⟨(), ?_, ?_⟩⟩
  · rw [kassert_eq_ok, beq_self_eq_true]
  refine Kern.bind_eq_ok.2 ⟨_, rfl, Kern.bind_eq_ok.2 ⟨_, hp0, Kern.bind_eq_ok.2 ⟨(), rfl, ?_⟩⟩⟩
  exact Kern.bind_eq_ok.2 ⟨_, rfl, Kern.bind_eq_ok.2 ⟨_, hp1, Kern.bind_eq_ok.2 ⟨(), rfl, rfl⟩⟩⟩

/-- Whole pages between two page boundaries. -/
theorem exists_count {start endAddr : Nat} (hstart : pageSize ∣ start) (hend : pageSize ∣ endAddr)
    (hle : start ≤ endAddr) : ∃ count, endAddr = start + count * pageSize := by
  obtain ⟨j, rfl⟩ := hstart
  obtain ⟨k, rfl⟩ := hend
  refine ⟨k - j, ?_⟩
  simp only [pageSize] at *
  omega

theorem pagesBetween_count (start count : Nat) :
    pagesBetween start (start + count * pageSize) = count := by
  simp only [pagesBetween, pageSize]
  omega

/-- The second walk over RAM in one piece that ends on a page boundary. -/
theorem scanPages_oneRam {start count : Nat} (hram : ramKernelStart ≤ start)
    (hend : clipEnd ⟨ramKernelStart, length⟩ = start + count * pageSize) :
    scanPages start (0, 0) (oneRam length) = (count, start + count * pageSize) := by
  have hhigh := clipEnd_le ⟨ramKernelStart, length⟩
  have hmax : (if ramKernelStart < start then start else ramKernelStart) = start := by
    split <;> omega
  have hpages : pagesBetween start (clipEnd ⟨ramKernelStart, length⟩) = count := by
    rw [hend, pagesBetween_count]
  have hsmall : 0 + pagesBetween start (clipEnd ⟨ramKernelStart, length⟩) < 2 ^ 32 := by
    rw [hpages]
    unfold zoneHighmemAddr at hhigh
    simp only [pageSize] at hend
    omega
  rw [oneRam, scanPages, scanPages]
  dsimp only
  rw [hmax, countPages_eq hhigh start 0 hsmall, hpages, Nat.zero_add, hend]

/-- What the set-up leaves of RAM in one piece that ends on a page boundary. -/
theorem phyPagesInit_oneRam {start count : Nat}
    (hstart : firstFrame kernEnd (pagesMemLength (oneRam length)) = start)
    (hram : ramKernelStart ≤ start)
    (hend : clipEnd ⟨ramKernelStart, length⟩ = start + count * pageSize) :
    phyPagesInit kernEnd (oneRam length) mem = .ok ⟨phyPagesAddr kernEnd, count, start,
      start + count * pageSize,
      bzero mem (phyPagesAddr kernEnd) (pagesMemLength (oneRam length))⟩ :=
  phyPagesInit_of_covers hstart hram (scanPages_oneRam hram hend) (hend ▸ clipEnd_le _)

/-- **The set-up is accepted** when the RAM, or what is used of it, ends on a page boundary behind the
first frame. -/
theorem phyPagesInit_accepts
    (hram : ramKernelStart ≤ firstFrame kernEnd (pagesMemLength (oneRam length)))
    (hlt : firstFrame kernEnd (pagesMemLength (oneRam length)) < clipEnd ⟨ramKernelStart, length⟩)
    (hal : pageSize ∣ clipEnd ⟨ramKernelStart, length⟩) (mem : Nat → BitVec 8) :
    ∃ s, phyPagesInit kernEnd (oneRam length) mem = .ok s := by
  obtain ⟨count, hcount⟩ := exists_count (pageSize_dvd_firstFrame ..) hal hlt.le
  exact ⟨_, phyPagesInit_oneRam rfl hram hcount⟩

/-- 128 MB of RAM, with a kernel of 256 KB. -/
theorem phyPagesInit_consistent_128 : ∃ s,
    phyPagesInit 0x140000 (oneRam 0x7F00000) (fun _ => 0) = .ok s ∧
      Consistent 0x140000 0x7F00000 s := by
  obtain ⟨s, h⟩ := @phyPagesInit_accepts 0x140000 0x7F00000 (by decide) (by decide) (by decide)
    fun _ => 0
  exact ⟨s, h, phyPagesInit_consistent (by decide) (by decide) h⟩

end Hurlex
