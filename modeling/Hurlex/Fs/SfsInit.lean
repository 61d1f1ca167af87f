import Hurlex.Fs.Sfs

/-!
# The partition `sfs_init` formats (`fs/sfs/sfs.c`, `include/mbr.h`)

An MBR entry says where a partition starts and how many sectors it has. `sfs_mkfs` wants the sector the
partition starts at and the sector it ends at: it subtracts the one from the other. In between,
`sfs_init` puts `nr_sectors` into `end_sec`, so a partition with `n` sectors from sector `s` on is
formatted as if it ended at sector `n` of the disk.

* **`sfsInit_of_only`**: what `sfs_init` does with a table that has one SFS partition. A partition with
  no more sectors than there are in front of it is passed over, any other one loses as many sectors as
  there are in front of it.
* **`sfsInit_misses_partition`**: as `s` is never zero, no partition is formatted at its own extent.

Out of scope: `add_filesystem`, whose result `sfs_init` only reports.
-/

namespace Hurlex.Sfs

/-- The sectors `sfs_init` calls `sfs_mkfs` with, if it does. -/
def mkfsArgs (part : List Partition) : Option (Nat × Nat) :=
  let (startSec, endSec) := findPartition part
  if Guard startSec endSec then some (startSec, endSec) else none

theorem sfsInit_eq_map (part : List Partition) :
    sfsInit part = (mkfsArgs part).map fun args => sfsMkfs args.1 args.2 blockSize := by
  unfold sfsInit mkfsArgs
  dsimp only
  split <;> rfl

/-- The SFS entries of a partition table. -/
def sfsEntries (part : List Partition) : List Partition :=
  part.filter fun p => p.partitionType = sfsT

/-- `sfs_init` hands `sfs_mkfs` the sectors of the partition `p`. -/
def FormatsRange (part : List Partition) (p : Partition) : Prop :=
  mkfsArgs part = some (p.startSector, p.startSector + p.nrSectors)

/-- `sfs_init` lays out a file system on all sectors of `p` behind the reserved ones. -/
def FormatsUsable (part : List Partition) (p : Partition) : Prop :=
  ∃ l, sfsInit part = some l ∧ l.allSec = p.nrSectors - inodemapOffset

/-- The loop only looks at the SFS entries. -/
theorem findPartition_sfsEntries (part : List Partition) :
    findPartition part = findPartition (sfsEntries part) := by
  unfold findPartition sfsEntries
  rw [List.foldl_filter]
  congr 1
  funext found p
  by_cases h : p.partitionType = sfsT <;> simp [h]

variable {part : List Partition} {p : Partition}

theorem findPartition_of_only (honly : sfsEntries part = [p]) :
    findPartition part = (p.startSector, p.nrSectors) := by
  have hp : p ∈ sfsEntries part := honly ▸ List.mem_singleton_self p
  have hsfs : p.partitionType = sfsT := of_decide_eq_true (List.mem_filter.1 hp).2
  rw [findPartition_sfsEntries, honly]
  exact if_pos hsfs

/-- **What becomes of the only SFS partition**: the number of its sectors stands for its end. -/
theorem sfsInit_of_only (honly : sfsEntries part = [p]) (hs : 0 < p.startSector) :
    mkfsArgs part =
      if p.startSector < p.nrSectors then some (p.startSector, p.nrSectors) else none := by
  unfold mkfsArgs
  rw [findPartition_of_only honly]
  refine if_congr ⟨fun h => h.2.2, fun h => ⟨hs, ?_, h⟩⟩ rfl rfl
  omega

/-- The size `sfs_mkfs` works with is short by the sectors in front of the partition, and wraps where
that leaves fewer than the reserved ones. -/
theorem allSec_of_count {s n : Nat} (hn : n < 2 ^ 32) (hlt : s < n) :
    (sfsMkfs s n blockSize).allSec = u32Sub (n - s) inodemapOffset := by
  show u32Sub (u32Sub n s) inodemapOffset = u32Sub (n - s) inodemapOffset
  rw [u32Sub_of_le hn (Nat.le_of_lt hlt)]

/-- **No partition is formatted at its own extent**, neither in the range nor in the size. -/
theorem sfsInit_misses_partition (honly : sfsEntries part = [p]) (hs : 0 < p.startSector)
    (hn : 64 ≤ p.nrSectors) (hend : p.startSector + p.nrSectors < 2 ^ 32) :
    ¬ FormatsRange part p ∧ ¬ FormatsUsable part p := by
  have hargs := sfsInit_of_only honly hs
  by_cases hlt : p.startSector < p.nrSectors
  · rw [if_pos hlt] at hargs
    constructor
    · intro hrange
      rw [FormatsRange, hargs, Option.some_inj, Prod.mk.injEq] at hrange
      omega
    · rintro ⟨l, hl, hall⟩
      rw [sfsInit_eq_map, hargs, Option.map_some, Option.some_inj] at hl
      subst hl
      rw [allSec_of_count (by omega) hlt] at hall
      simp only [u32Sub, inodemapOffset] at hall
      omega
  · -- passed over
    rw [if_neg hlt] at hargs
    constructor
    · intro hrange
      rw [FormatsRange, hargs] at hrange
      cases hrange
    · rintro ⟨l, hl, -⟩
      rw [sfsInit_eq_map, hargs] at hl
      cases hl

/-- A partition of 1000 sectors behind the first 63. -/
theorem sfsInit_misses_partition_example :
    ¬ FormatsRange [⟨sfsT, 63, 1000⟩, ⟨0, 0, 0⟩, ⟨0, 0, 0⟩, ⟨0, 0, 0⟩] ⟨sfsT, 63, 1000⟩ ∧
      ¬ FormatsUsable [⟨sfsT, 63, 1000⟩, ⟨0, 0, 0⟩, ⟨0, 0, 0⟩, ⟨0, 0, 0⟩] ⟨sfsT, 63, 1000⟩ :=
  sfsInit_misses_partition rfl (by decide) (by decide) (by decide)

/-- The file system of that partition has 925 sectors for its areas, not 988. -/
theorem sfsInit_not_onPartition : ¬ ∀ (part : List Partition) (p : Partition),
    sfsEntries part = [p] → 0 < p.startSector → 64 ≤ p.nrSectors →
    p.startSector + p.nrSectors < 2 ^ 32 → FormatsRange part p ∧ FormatsUsable part p := by
  intro h
  obtain ⟨l, hl, hall⟩ := (h [⟨sfsT, 63, 1000⟩, ⟨0, 0, 0⟩, ⟨0, 0, 0⟩, ⟨0, 0, 0⟩] ⟨sfsT, 63, 1000⟩
    rfl (by decide) (by decide) (by decide)).2
  rw [← Option.some_inj.1 hl] at hall
  revert hall
  decide

end Hurlex.Sfs
