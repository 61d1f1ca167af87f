import Mathlib.Data.List.Basic
import Hurlex.Types

/-!
# Formatting an SFS partition (`fs/sfs/sfs.c`)

`sfs_mkfs` computes a layout from the first sector of a partition and the sector it ends at: the super
block, two maps with a byte for each inode and each block, and the inode and block areas. A tenth of
the usable sectors goes to the inodes and nine tenths to the blocks, so what is left for the maps is
what the division by 10 leaves over.

Nothing of the file system is written to the disk yet; the layout is all `sfs_mkfs` computes.

**`sfsMkfs_sound_iff`**: for which partitions the layout is sound.
-/

namespace Hurlex.Sfs

/-- `SFS_T`. -/
def sfsT : Nat := 0xAA

def superBlockOffset : Nat := 4

def inodemapOffset : Nat := 12

/-- `BLOCK_SIZE`. -/
def blockSize : Nat := 2048

def pBlockMapSize : Nat := 32

def ppBlockMapSize : Nat := 32

def maxFileSize : Nat :=
  pBlockMapSize * blockSize + ppBlockMapSize * (blockSize / 4) * blockSize

/-- `struct sfs_super_block`. -/
structure SfsSuperBlock where
  sType : Nat
  sInodeCount : Nat
  sBlockCount : Nat
  sBlockSize : Nat
  sMaxFile : Nat
  sRootInode : Nat
  inSecs : Nat
  blSecs : Nat
  imStart : Nat
  imSecs : Nat
  bmStart : Nat
  bmSecs : Nat
  inStart : Nat
  blStart : Nat
  deriving DecidableEq

/-- What `sfs_mkfs` computes: the super block, and the two values that are printed only. -/
structure Layout extends SfsSuperBlock where
  sbStart : Nat
  allSec : Nat
  deriving DecidableEq

def sfsMkfs (startSec endSec blockSize : Nat) : Layout :=
  let sbStart := u32 (startSec + superBlockOffset)
  let allSec := u32Sub (u32Sub endSec startSec) inodemapOffset
  let inSecs := allSec / 10
  let blSecs := u32 (allSec / 10 * 9)
  let inCount := inSecs
  let blCount := blSecs / (blockSize / 512)
  let imStart := u32 (startSec + inodemapOffset)
  let imSecs := u32 (inSecs / 512 + 1)
  let bmStart := u32 (imStart + imSecs)
  let bmSecs := u32 (blSecs / blockSize + 1)
  let inStart := u32 (bmStart + bmSecs)
  let blStart := u32 (inStart + inSecs)
  { sType := sfsT, sInodeCount := inCount, sBlockCount := blCount, sBlockSize := blockSize,
    sMaxFile := maxFileSize, sRootInode := 0, inSecs, blSecs, imStart, imSecs, bmStart, bmSecs,
    inStart, blStart, sbStart, allSec }

/-! ## `sfs_init` -/

/-- The fields of a partition's entry in the MBR that `sfs_init` reads. -/
structure Partition where
  partitionType : Nat
  startSector : Nat
  nrSectors : Nat

/-- The test before `sfs_mkfs` is called. -/
def Guard (startSec endSec : Nat) : Prop := startSec > 0 ∧ endSec > 0 ∧ endSec > startSec

instance (startSec endSec : Nat) : Decidable (Guard startSec endSec) :=
  inferInstanceAs (Decidable (_ ∧ _ ∧ _))

/-- The loop over the partition table keeps the last SFS partition. -/
def findPartition (part : List Partition) : Nat × Nat :=
  part.foldl (fun found p => if p.partitionType = sfsT then (p.startSector, p.nrSectors) else found)
    (0, 0)

/-- `sfs_init`: the layout, if there is a partition to format. -/
def sfsInit (part : List Partition) : Option Layout :=
  let (startSec, endSec) := findPartition part
  if Guard startSec endSec then some (sfsMkfs startSec endSec blockSize) else none

/-! ## A sound layout -/

/-- No step of the computation of `l` leaves the 32 bits. -/
structure NoWrap (startSec endSec blockSize : Nat) (l : Layout) : Prop where
  sbStart : startSec + superBlockOffset < 2 ^ 32
  secs : startSec ≤ endSec
  allSec : inodemapOffset ≤ endSec - startSec
  blSecs : l.allSec / 10 * 9 < 2 ^ 32
  imStart : startSec + inodemapOffset < 2 ^ 32
  imSecs : l.inSecs / 512 + 1 < 2 ^ 32
  bmStart : l.imStart + l.imSecs < 2 ^ 32
  bmSecs : l.blSecs / blockSize + 1 < 2 ^ 32
  inStart : l.bmStart + l.bmSecs < 2 ^ 32
  blStart : l.inStart + l.inSecs < 2 ^ 32

/-- The regions in the order they are meant to have, each with its first sector and its size. -/
def Layout.regions (l : Layout) : List (Nat × Nat) :=
  [(l.sbStart, 1), (l.imStart, l.imSecs), (l.bmStart, l.bmSecs), (l.inStart, l.inSecs),
    (l.blStart, l.blSecs)]

/-- A layout of the sectors from `startSec` up to `endSec`. The maps have a byte for each inode and
each block. -/
structure Sound (startSec endSec blockSize : Nat) (l : Layout) : Prop where
  noWrap : NoWrap startSec endSec blockSize l
  ascending : l.regions.Pairwise fun r r' => r.1 + r.2 ≤ r'.1
  inside : ∀ r ∈ l.regions, startSec ≤ r.1 ∧ r.1 + r.2 ≤ endSec
  inodeMap : l.sInodeCount ≤ l.imSecs * 512
  blockMap : l.sBlockCount ≤ l.bmSecs * 512

/-- The sectors the maps take come out of what the division by 10 leaves over. -/
def MapsFit (startSec endSec : Nat) : Prop :=
  let allSec := endSec - startSec - inodemapOffset
  inodemapOffset ≤ endSec - startSec ∧
    allSec / 10 / 512 + 1 + (allSec / 10 * 9 / blockSize + 1) ≤ allSec % 10

instance (startSec endSec : Nat) : Decidable (MapsFit startSec endSec) :=
  inferInstanceAs (Decidable (_ ∧ _))

variable {startSec endSec : Nat}

/-- The layout of a partition with `q` sectors for the inodes, as long as nothing wraps. -/
def exactLayout (startSec allSec : Nat) : Layout :=
  let q := allSec / 10
  let imSecs := q / 512 + 1
  let bmSecs := q * 9 / blockSize + 1
  let imStart := startSec + inodemapOffset
  { sType := sfsT, sInodeCount := q, sBlockCount := q * 9 / (blockSize / 512),
    sBlockSize := blockSize, sMaxFile := maxFileSize, sRootInode := 0, inSecs := q, blSecs := q * 9,
    imStart := imStart, imSecs := imSecs, bmStart := imStart + imSecs, bmSecs := bmSecs,
    inStart := imStart + imSecs + bmSecs, blStart := imStart + imSecs + bmSecs + q,
    sbStart := startSec + superBlockOffset, allSec := allSec }

/-- The sectors behind the last inode map byte, counted without wrapping, end with the partition. -/
theorem mapsFit_iff : MapsFit startSec endSec ↔ inodemapOffset ≤ endSec - startSec ∧
    (exactLayout startSec (endSec - startSec - inodemapOffset)).blStart +
      (exactLayout startSec (endSec - startSec - inodemapOffset)).blSecs ≤ endSec := by
  simp only [MapsFit, exactLayout, inodemapOffset, blockSize]
  refine and_congr_right fun h12 => ?_
  have hsplit := Nat.div_add_mod (endSec - startSec - inodemapOffset) 10
  omega

theorem u32Sub_secs (hend : endSec < 2 ^ 32) (hle : startSec ≤ endSec)
    (h12 : inodemapOffset ≤ endSec - startSec) :
    u32Sub (u32Sub endSec startSec) inodemapOffset = endSec - startSec - inodemapOffset := by
  rw [u32Sub_of_le hend hle, u32Sub_of_le (by omega) h12]

/-- With no wrap on the way the code computes the exact layout. -/
theorem NoWrap.eq_exact (hend : endSec < 2 ^ 32)
    (h : NoWrap startSec endSec blockSize (sfsMkfs startSec endSec blockSize)) :
    sfsMkfs startSec endSec blockSize =
      exactLayout startSec (endSec - startSec - inodemapOffset) := by
  have hall := u32Sub_secs hend h.secs h.allSec
  obtain ⟨hsb, -, -, hbl, him, hims, hbm, hbms, hin, hbls⟩ := h
  dsimp only [sfsMkfs] at hsb hbl him hims hbm hbms hin hbls
  unfold sfsMkfs exactLayout
  dsimp only
  rw [u32_of_lt hsb, u32_of_lt hbls, u32_of_lt hin, u32_of_lt hbm, u32_of_lt him, u32_of_lt hims,
    u32_of_lt hbms, u32_of_lt hbl, hall]

/-- If the exact layout ends inside the partition, the code computes it and nothing wraps. -/
theorem MapsFit.eq_exact (hend : endSec < 2 ^ 32) (hle : startSec ≤ endSec)
    (h : MapsFit startSec endSec) :
    sfsMkfs startSec endSec blockSize =
        exactLayout startSec (endSec - startSec - inodemapOffset) ∧
      NoWrap startSec endSec blockSize
        (exactLayout startSec (endSec - startSec - inodemapOffset)) := by
  obtain ⟨h12, hfit⟩ := mapsFit_iff.1 h
  have hall := u32Sub_secs hend hle h12
  have hoff : superBlockOffset ≤ inodemapOffset := by decide
  generalize endSec - startSec - inodemapOffset = allSec at hfit hall ⊢
  -- the last sector bounds every sum on the way
  have hlast : startSec + inodemapOffset + (allSec / 10 / 512 + 1) +
      (allSec / 10 * 9 / blockSize + 1) + allSec / 10 + allSec / 10 * 9 < 2 ^ 32 :=
    Nat.lt_of_le_of_lt hfit hend
  have hbls := Nat.lt_of_le_of_lt (Nat.le_add_right _ _) hlast
  have hin := Nat.lt_of_le_of_lt (Nat.le_add_right _ _) hbls
  have hbm := Nat.lt_of_le_of_lt (Nat.le_add_right _ _) hin
  have him := Nat.lt_of_le_of_lt (Nat.le_add_right _ _) hbm
  have hsb := Nat.lt_of_le_of_lt (Nat.add_le_add_left hoff startSec) him
  have hbl := Nat.lt_of_le_of_lt (Nat.le_add_left _ _) hlast
  have hbms := Nat.lt_of_le_of_lt (Nat.le_add_left _ _) hin
  have hims := Nat.lt_of_le_of_lt (Nat.le_add_left _ _) hbm
  refine ⟨?_, ⟨hsb, hle, h12, hbl, him, hims, hbm, hbms, hin, hbls⟩⟩
  unfold sfsMkfs exactLayout
  dsimp only
  rw [hall, u32_of_lt hbl, u32_of_lt hims, u32_of_lt hbms, u32_of_lt him, u32_of_lt hsb,
    u32_of_lt hbm, u32_of_lt hin, u32_of_lt hbls]

/-- The exact layout has its regions in order and room in its maps, whatever the size. -/
theorem exactLayout_sound {allSec : Nat}
    (hwrap : NoWrap startSec endSec blockSize (exactLayout startSec allSec))
    (hfit : (exactLayout startSec allSec).blStart + (exactLayout startSec allSec).blSecs ≤ endSec) :
    Sound startSec endSec blockSize (exactLayout startSec allSec) := by
  refine ⟨hwrap, ?_, ?_, ?_, ?_⟩
  · simp [Layout.regions, exactLayout, superBlockOffset, inodemapOffset, blockSize]
    omega
  · simp [Layout.regions, exactLayout, superBlockOffset, inodemapOffset, blockSize] at hfit ⊢
    omega
  · show allSec / 10 ≤ (allSec / 10 / 512 + 1) * 512
    omega
  · show allSec / 10 * 9 / (2048 / 512) ≤ (allSec / 10 * 9 / 2048 + 1) * 512
    omega

/-- **Which partitions get a sound layout**: those with room for the maps in what the division by 10
leaves over. -/
theorem sfsMkfs_sound_iff (hguard : Guard startSec endSec) (hend : endSec < 2 ^ 32) :
    Sound startSec endSec blockSize (sfsMkfs startSec endSec blockSize) ↔
      MapsFit startSec endSec := by
  constructor
  · intro h
    have hlast := (h.inside (_, _) (.tail _ (.tail _ (.tail _ (.tail _ (.head _)))))).2
    dsimp only at hlast
    rw [h.noWrap.eq_exact hend] at hlast
    exact mapsFit_iff.2 ⟨h.noWrap.allSec, hlast⟩
  · intro h
    obtain ⟨heq, hwrap⟩ := h.eq_exact hend (Nat.le_of_lt hguard.2.2)
    rw [heq]
    exact exactLayout_sound hwrap (mapsFit_iff.1 h).2

theorem sfsMkfs_sound_iff_small :
    Guard 63 100 ∧ (Sound 63 100 blockSize (sfsMkfs 63 100 blockSize) ↔ MapsFit 63 100) :=
  ⟨by decide, sfsMkfs_sound_iff (by decide) (by decide)⟩

/-- A partition of 32 sectors: the areas take the 20 that are left, and the maps two more. -/
theorem sfsMkfs_not_sound : ¬ ∀ startSec endSec : Nat, Guard startSec endSec → endSec < 2 ^ 32 →
    Sound startSec endSec blockSize (sfsMkfs startSec endSec blockSize) := by
  intro h
  have hlast := (h 63 95 (by decide) (by decide)).inside (_, _)
    (.tail _ (.tail _ (.tail _ (.tail _ (.head _)))))
  revert hlast
  decide

/-- **No partition of 7 MB or more** has room for the maps. -/
theorem not_sound_of_large (hguard : Guard startSec endSec) (hend : endSec < 2 ^ 32)
    (hlarge : 13672 ≤ endSec - startSec) :
    ¬ Sound startSec endSec blockSize (sfsMkfs startSec endSec blockSize) := by
  rw [sfsMkfs_sound_iff hguard hend]
  rintro ⟨-, hfit⟩
  have hall : 13660 ≤ endSec - startSec - inodemapOffset := Nat.le_sub_of_add_le hlarge
  generalize endSec - startSec - inodemapOffset = allSec at hfit hall
  have hinode : 2 ≤ allSec / 10 / 512 := by omega
  have hblock : 6 ≤ allSec / 10 * 9 / 2048 := by omega
  have hrest : allSec / 10 / 512 + 1 + (allSec / 10 * 9 / 2048 + 1) ≤ allSec % 10 := hfit
  omega

/-- What `sfs_init` formats has passed its test. -/
theorem sfsInit_eq_some {part : List Partition} {l : Layout} (h : sfsInit part = some l) :
    ∃ startSec endSec, Guard startSec endSec ∧ l = sfsMkfs startSec endSec blockSize := by
  unfold sfsInit at h
  dsimp only at h
  split at h
  · rename_i hguard
    exact ⟨_, _, hguard, (Option.some_inj.1 h).symm⟩
  · cases h

end Hurlex.Sfs
