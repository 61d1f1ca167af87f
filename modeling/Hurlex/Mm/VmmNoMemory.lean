import Hurlex.Mm.FirstFit
import Hurlex.Mm.Vmm

/-!
# `map` when no page is left

`map` does not test what `alloc_pages(1)` returns. Without a free page it takes frame 0 for the new
page table: the directory entry becomes frame 0, present and writable, and the word of the page
table entry goes into frame 0. `get_mapping` masks the flags off that entry and finds no table
there, so the next `map` of the same 4 MB asks for one again.

**`map_unserved_iff`**: memory is left as it was exactly when both words were there before.
-/

namespace Hurlex.Vmm

open FirstFit (FfMm ffAllocPages freeList)

/-- `map` with the page manager it takes its page tables from. -/
def mapIn (pmmAddrStart : Nat) (mm : FfMm) (s : Space) (va pa flags : Word) :
    Kern (FfMm × Space) :=
  if s.pgd (pgdIndex va) &&& pageMask = 0 then do
    let r ← ffAllocPages pmmAddrStart mm 1
    return (r.1, map s (BitVec.ofNat 32 r.2) va pa flags)
  else .ok (mm, map s 0 va pa flags)

/-- The directory entry `map` makes of frame 0. -/
def entry0 : Word := 0 ||| pagePresent ||| pageWrite

variable {pmmAddrStart : Nat} {mm mm' : FfMm} {s : Space} {va pa flags : Word}

/-- `map` with frame 0 for its page table. -/
theorem map_zero (h : s.pgd (pgdIndex va) &&& pageMask = 0) :
    map s 0 va pa flags =
      (s.setPgd (pgdIndex va) entry0).setPte (paToKa 0) (pteIndex va)
        ((pa &&& pageMask) ||| flags) := by
  unfold map
  rw [if_pos h]
  rfl

theorem mapIn_unserved (h : s.pgd (pgdIndex va) &&& pageMask = 0)
    (ha : ffAllocPages pmmAddrStart mm 1 = .ok (mm', 0)) :
    mapIn pmmAddrStart mm s va pa flags = .ok (mm', map s 0 va pa flags) := by
  unfold mapIn
  rw [if_pos h, ha]
  rfl

/-- Two writes leave a space as it was when both words were there. -/
theorem write_eq_self_iff {i j : Index} {e w : Word} :
    (s.setPgd i e).setPte (paToKa 0) j w = s ↔ s.pgd i = e ∧ s.phys 0 j = w := by
  constructor
  · intro h
    have hpgd : Function.update s.pgd i e = s.pgd := congrArg Space.pgd h
    have hphys := congrArg Space.phys h
    simp only [Space.setPte, Space.setPgd, kaToPa_paToKa] at hphys
    refine ⟨?_, ?_⟩
    · rw [← hpgd, Function.update_self]
    · rw [← hphys, Function.update_self, Function.update_self]
  · rintro ⟨rfl, rfl⟩
    simp only [Space.setPte, Space.setPgd, kaToPa_paToKa, Function.update_eq_self]

/-- A refused request leaves the page manager as it was. -/
theorem ffAllocPages_refused (M : PhyMem) (ha : ffAllocPages M.start mm 1 = .ok (mm', 0))
    (hfirst : ∀ p, mm.mem.links.next freeList = .entry p → p < M.count) : mm' = mm := by
  unfold ffAllocPages at ha
  by_cases hnone : 1 = 0 ∨ 1 > mm.phyPageNowCount
  · rw [if_pos hnone] at ha
    cases ha
    rfl
  · rw [if_neg hnone] at ha
    cases hn : mm.mem.links.next freeList with
    | head _ =>
      rw [hn] at ha
      cases ha
      rfl
    | entry p =>
      -- a page of the list is never at address 0
      rw [hn] at ha
      dsimp only at ha
      rw [M.pageToAddr_eq (Nat.le_of_lt (hfirst p hn))] at ha
      have haddr : M.addr p = 0 := congrArg Prod.snd (Except.ok.inj ha)
      have hpos := M.pos
      rw [PhyMem.addr] at haddr
      omega

/-- **When `map` fails without damage.** -/
theorem map_unserved_iff (M : PhyMem) (h : s.pgd (pgdIndex va) &&& pageMask = 0)
    (ha : ffAllocPages M.start mm 1 = .ok (mm', 0)) :
    ∃ s', mapIn M.start mm s va pa flags = .ok (mm', s') ∧
      ((∀ p, mm.mem.links.next freeList = .entry p → p < M.count) → mm' = mm) ∧
      (s' = s ↔ s.pgd (pgdIndex va) = 3 ∧ s.phys 0 (pteIndex va) = (pa &&& pageMask) ||| flags) := by
  refine ⟨_, mapIn_unserved h ha, ffAllocPages_refused M ha, ?_⟩
  rw [map_zero h]
  exact write_eq_self_iff

/-- The damage goes unseen: the new entry names no table for the next walk. -/
theorem getMapping_unserved (h : s.pgd (pgdIndex va) &&& pageMask = 0) (p : Option Word) :
    getMapping (map s 0 va pa flags) va p = (0, p) := by
  have he : (map s 0 va pa flags).pgd (pgdIndex va) &&& pageMask = 0 := by
    rw [map_zero h]
    have : ((s.setPgd (pgdIndex va) entry0).setPte (paToKa 0) (pteIndex va)
        ((pa &&& pageMask) ||| flags)).pgd (pgdIndex va) = entry0 := Function.update_self ..
    rw [this]
    decide
  unfold getMapping
  rw [if_pos he]

/-! ### No page free -/

/-- A page manager with no free page. -/
def noPages : FfMm := ⟨⟨⟨fun x => x, fun x => x⟩, fun _ => Page.zero⟩, 0, 0, 0, 0⟩

/-- The managed memory of `noPages`: one page, in use. -/
def onePage : PhyMem := ⟨0x200000, 1, PhyMem.aligned_2M, PhyMem.kernel_2M, by decide, by decide⟩

/-- Memory full of zeros. -/
def zeros : Space := ⟨fun _ => 0, fun _ _ => 0⟩

theorem ffAllocPages_noPages : ffAllocPages onePage.start noPages 1 = .ok (noPages, 0) := rfl

theorem map_unserved_zeros : ∃ s', mapIn onePage.start noPages zeros 0x400000 0x300000 3 =
      .ok (noPages, s') ∧
    ((∀ p, noPages.mem.links.next freeList = .entry p → p < onePage.count) →
      noPages = noPages) ∧
    (s' = zeros ↔ zeros.pgd (pgdIndex 0x400000) = 3 ∧
      zeros.phys 0 (pteIndex 0x400000) = (0x300000 &&& pageMask) ||| 3) :=
  map_unserved_iff onePage (by decide) ffAllocPages_noPages

/-- Mapping the page at `0x400000` then writes the words 3 and `0x300003`. -/
theorem map_damages : ¬ ∀ (M : PhyMem) (mm : FfMm) (s : Space) (va pa flags : Word),
    s.pgd (pgdIndex va) &&& pageMask = 0 → ffAllocPages M.start mm 1 = .ok (mm, 0) →
    mapIn M.start mm s va pa flags = .ok (mm, s) := by
  intro h
  have h0 := h onePage noPages zeros 0x400000 0x300000 3 (by decide) ffAllocPages_noPages
  rw [mapIn_unserved (by decide) ffAllocPages_noPages] at h0
  have hs : map zeros 0 0x400000 0x300000 3 = zeros := congrArg Prod.snd (Except.ok.inj h0)
  have hpgd := congrArg (fun s => s.pgd 1) hs
  exact absurd hpgd (by decide)

end Hurlex.Vmm
