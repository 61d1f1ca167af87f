import Hurlex.Mm.PmmInit

/-!
# Which sizes of RAM boot (`arch/i386/mm/pmm.c`)

The second walk of `phy_pages_init` counts a page for every address `pmm_addr_start + i * 4096` in front
of the end of the RAM, so a page that the end cuts short is counted as well. The second assertion
expects the last page to start a whole page in front of the end. The two agree only if the RAM ends on
a page boundary, and what the firmware reports need not.

* **`dvd_of_boots`**: a kernel that gets past the assertions has been given RAM that ends on a page
  boundary.
* **`boots_iff`**: with RAM that reaches behind the descriptors this is all it takes, as long as the
  descriptors themselves end in front of `ZONE_HIGHMEM_ADDR`.
-/

namespace Hurlex

/-- Where the RAM that is used ends. -/
def usableEnd (length : Nat) : Nat := min (ramKernelStart + length) zoneHighmemAddr

/-- Where the array of descriptors ends in physical memory. -/
def arrayEnd (kernEnd length : Nat) : Nat :=
  kernEnd + kvpageSize + pagesMemLength (oneRam length)

/-- The first page boundary behind the array. -/
def behindArray (kernEnd length : Nat) : Nat := (arrayEnd kernEnd length / pageSize + 1) * pageSize

/-- `phy_pages_init` gets past its assertions, and the pages it manages are the whole frames from
`pmm_addr_start` up to the end of the RAM that is used. -/
def Boots (kernEnd length : Nat) (mem : Nat → BitVec 8) : Prop :=
  ∃ s, phyPagesInit kernEnd (oneRam length) mem = .ok s ∧
    ∀ i, i < s.phyPagesCount ↔ s.pmmAddrStart + (i + 1) * pageSize ≤ usableEnd length

variable {kernEnd length : Nat} {mem : Nat → BitVec 8}

theorem clipEnd_oneRam (hlen : ramKernelStart + length < 2 ^ 32) :
    clipEnd ⟨ramKernelStart, length⟩ = usableEnd length := by
  unfold clipEnd usableEnd
  dsimp only
  rw [u32_of_lt hlen]
  split <;> omega

theorem usableEnd_le (length : Nat) : usableEnd length ≤ zoneHighmemAddr := Nat.min_le_right _ _

theorem ArrayFits.firstFrame_behind (h : ArrayFits kernEnd length) :
    firstFrame kernEnd (pagesMemLength (oneRam length)) = behindArray kernEnd length := by
  rw [h.firstFrame_eq, behindArray, arrayEnd, Nat.add_div_right _ (by decide)]

/-- The kernel's page tables alone reach behind the start of the RAM. -/
theorem ramKernelStart_le_behind (kernEnd length : Nat) :
    ramKernelStart < behindArray kernEnd length := by
  have htables : kvpageSize = 4 * ramKernelStart := rfl
  have hmod := Nat.div_add_mod (arrayEnd kernEnd length) pageSize
  have hlt : arrayEnd kernEnd length % pageSize < pageSize := Nat.mod_lt _ (by decide)
  have hle : kvpageSize ≤ arrayEnd kernEnd length := by
    unfold arrayEnd
    omega
  have hpos : 0 < ramKernelStart := by decide
  rw [behindArray, Nat.succ_mul, Nat.mul_comm]
  omega

/-- What `phy_pages_init` accepts ends on a page boundary, not in front of the first page. -/
theorem dvd_of_boots (hlen : ramKernelStart + length < 2 ^ 32) (hfit : ArrayFits kernEnd length)
    (h : Boots kernEnd length mem) :
    pageSize ∣ usableEnd length ∧ behindArray kernEnd length ≤ usableEnd length := by
  obtain ⟨s, hs, -⟩ := h
  obtain ⟨hstart, hend, -, hcovers⟩ := oneRam_accepted hfit hs
  have hal : pageSize ∣ s.pmmAddrStart := hstart ▸ pageSize_dvd_firstFrame ..
  rw [hfit.firstFrame_behind] at hstart
  rw [clipEnd_oneRam hlen] at hend
  rw [← hend, ← hstart, hcovers]
  exact ⟨(Nat.dvd_add_right hal).2 (Nat.dvd_mul_left _ _), Nat.le_add_right _ _⟩

theorem boots_of_dvd (hlen : ramKernelStart + length < 2 ^ 32) (hfit : ArrayFits kernEnd length)
    (hal : pageSize ∣ usableEnd length) (hle : behindArray kernEnd length ≤ usableEnd length) :
    Boots kernEnd length mem := by
  have hram := ramKernelStart_le_behind kernEnd length
  have hframe : pageSize ∣ behindArray kernEnd length := Nat.dvd_mul_left _ _
  obtain ⟨count, hcount⟩ := exists_count hframe hal hle
  have hend : clipEnd ⟨ramKernelStart, length⟩ = behindArray kernEnd length + count * pageSize := by
    rw [clipEnd_oneRam hlen, hcount]
  refine ⟨_, phyPagesInit_oneRam hfit.firstFrame_behind hram.le hend, fun i => ?_⟩
  dsimp only
  rw [hcount, Nat.add_le_add_iff_left, Nat.mul_le_mul_right_iff (by decide)]
  rfl

/-- **Which sizes of RAM boot.** A region that reaches two pages behind the descriptors also reaches
behind the first of the two. -/
theorem boots_iff (hlen : ramKernelStart + length < 2 ^ 32) (hfit : ArrayFits kernEnd length)
    (hreach : arrayEnd kernEnd length + 2 * pageSize ≤ ramKernelStart + length)
    (mem : Nat → BitVec 8) :
    Boots kernEnd length mem ↔
      pageSize ∣ usableEnd length ∧ behindArray kernEnd length ≤ zoneHighmemAddr := by
  constructor
  · intro h
    obtain ⟨hal, hle⟩ := dvd_of_boots hlen hfit h
    exact ⟨hal, hle.trans (usableEnd_le length)⟩
  · rintro ⟨hal, hle⟩
    refine boots_of_dvd hlen hfit hal (Nat.le_min.2 ⟨?_, hle⟩)
    have hdiv := Nat.div_mul_le_self (arrayEnd kernEnd length) pageSize
    rw [behindArray, Nat.succ_mul]
    omega

/-- 128 MB of RAM, with a kernel of 256 KB. -/
theorem boots_iff_128 : Boots 0x140000 0x7F00000 (fun _ => 0) ↔
    pageSize ∣ usableEnd 0x7F00000 ∧ behindArray 0x140000 0x7F00000 ≤ zoneHighmemAddr :=
  boots_iff (by decide) (by decide) (by decide) _

/-- A kilobyte less is a machine that does not boot. -/
theorem not_boots : ¬ ∀ (kernEnd length : Nat) (mem : Nat → BitVec 8),
    ramKernelStart + length < 2 ^ 32 → ArrayFits kernEnd length →
    arrayEnd kernEnd length + 2 * pageSize ≤ ramKernelStart + length →
    Boots kernEnd length mem := by
  intro h
  have hboots := h 0x140000 0x7EFFC00 (fun _ => 0) (by decide) (by decide) (by decide)
  have hal := (dvd_of_boots (by decide) (by decide) hboots).1
  revert hal
  decide

end Hurlex
