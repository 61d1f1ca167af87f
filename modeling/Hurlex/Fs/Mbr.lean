import Mathlib.Data.Fin.VecNotation
import Mathlib.Tactic.FinCases
import Hurlex.Driver.IdeDisk
import Hurlex.Fs.Sfs

/-!
# The partition table (`fs/mbr.c`, `include/mbr.h`)

`mbr_info` (lines 30 to 48 of `mbr.h`) is a packed structure of 512 bytes, and `read_mbr_info` (lines 26
to 41 of `mbr.c`) reads the first sector of the disk over it. The fields lie in the bytes as `decodeMbr`
says; that none of them is lost and no two share a byte is `decode_encodeMbr`.

* **`readMbrInfo_table`**: after `read_mbr_info` the structure is the one on the disk or, if the call
  fails, the one of before, and nothing else has changed.

Out of scope: `show_partition_info`, which only prints, and what the boot code in the sector does.
-/

namespace Hurlex.Mbr

open Lib.Machine Lib.Ata Ide

/-- `MBR_CODE_LENGTH`. -/
abbrev mbrCodeLength : Nat := 446

/-- `PARTITION_SIZE`, the bytes of a `partition_info_t`. -/
abbrev partitionSize : Nat := 16

/-- `PARTITION_COUNT`. -/
abbrev partitionCount : Nat := 4

/-- `SECTION_SIZE`, the bytes of an `mbr_info_t`. -/
abbrev sectionSize : Nat := 512

/-- `partition_info_t`. -/
@[ext]
structure PartitionInfo where
  activeFlag : BitVec 8
  startChs : Fin 3 → BitVec 8
  partitionType : BitVec 8
  endChs : Fin 3 → BitVec 8
  startSector : BitVec 32
  nrSectors : BitVec 32

/-- `mbr_info_t`. -/
@[ext]
structure MbrInfo where
  mbrCode : Fin mbrCodeLength → BitVec 8
  part : Fin partitionCount → PartitionInfo
  magicNum : BitVec 16

/-! ## The bytes of the structures -/

/-- 16 bytes as a table entry. -/
def decodePart (f : Fin partitionSize → BitVec 8) : PartitionInfo where
  activeFlag := f 0
  startChs := ![f 1, f 2, f 3]
  partitionType := f 4
  endChs := ![f 5, f 6, f 7]
  startSector := f 11 ++ f 10 ++ f 9 ++ f 8
  nrSectors := f 15 ++ f 14 ++ f 13 ++ f 12

def encodePart (p : PartitionInfo) : Fin partitionSize → BitVec 8 :=
  ![p.activeFlag, p.startChs 0, p.startChs 1, p.startChs 2,
    p.partitionType, p.endChs 0, p.endChs 1, p.endChs 2,
    p.startSector.extractLsb' 0 8, p.startSector.extractLsb' 8 8,
    p.startSector.extractLsb' 16 8, p.startSector.extractLsb' 24 8,
    p.nrSectors.extractLsb' 0 8, p.nrSectors.extractLsb' 8 8,
    p.nrSectors.extractLsb' 16 8, p.nrSectors.extractLsb' 24 8]

/-- Where byte `j` of table entry `i` lies. -/
def partByte (i : Fin partitionCount) (j : Fin partitionSize) : Fin sectionSize :=
  ⟨mbrCodeLength + (partitionSize * i + j), by
    have hi : i.val < 4 := i.isLt
    have hj : j.val < 16 := j.isLt
    simp only [mbrCodeLength, partitionSize, sectionSize]
    omega⟩

/-- 512 bytes as an MBR. -/
def decodeMbr (f : Fin sectionSize → BitVec 8) : MbrInfo where
  mbrCode i := f (i.castLE (by decide))
  part i := decodePart fun j => f (partByte i j)
  magicNum := f 511 ++ f 510

def encodeMbr (m : MbrInfo) (i : Fin sectionSize) : BitVec 8 :=
  if h : i < mbrCodeLength then m.mbrCode ⟨i, h⟩
  else
    let k := i - mbrCodeLength
    if h : k / partitionSize < partitionCount then
      encodePart (m.part ⟨k / partitionSize, h⟩) ⟨k % partitionSize, Nat.mod_lt _ (by decide)⟩
    else if i = 510 then m.magicNum.extractLsb' 0 8
    else m.magicNum.extractLsb' 8 8

theorem decode_encodePart (p : PartitionInfo) : decodePart (encodePart p) = p := by
  refine PartitionInfo.ext rfl (funext fun i => ?_) rfl (funext fun i => ?_) ?_ ?_
  · fin_cases i <;> rfl
  · fin_cases i <;> rfl
  · exact bytes_append p.startSector
  · exact bytes_append p.nrSectors

theorem encodeMbr_code (m : MbrInfo) (k : Fin mbrCodeLength) :
    encodeMbr m (k.castLE (by decide)) = m.mbrCode k := dif_pos k.isLt

theorem encodeMbr_part (m : MbrInfo) (p : Fin partitionCount) (j : Fin partitionSize) :
    encodeMbr m (partByte p j) = encodePart (m.part p) j := by
  have hp : p.val < 4 := p.isLt
  have hj : j.val < 16 := j.isLt
  have hcode : ¬ (partByte p j).val < mbrCodeLength := Nat.not_lt.2 (Nat.le_add_right ..)
  have hk : (partByte p j).val - mbrCodeLength = 16 * p.val + j.val := Nat.add_sub_cancel_left ..
  have hdiv : ((partByte p j).val - mbrCodeLength) / partitionSize = p.val := by
    rw [hk]
    show (16 * p.val + j.val) / 16 = p.val
    omega
  have hmod : ((partByte p j).val - mbrCodeLength) % partitionSize = j.val := by
    rw [hk]
    show (16 * p.val + j.val) % 16 = j.val
    omega
  unfold encodeMbr
  rw [dif_neg hcode]
  dsimp only
  rw [dif_pos (hdiv ▸ hp)]
  exact congrArg₂ (fun p j => encodePart (m.part p) j) (Fin.ext hdiv) (Fin.ext hmod)

theorem encodeMbr_magic (m : MbrInfo) : encodeMbr m 510 = m.magicNum.extractLsb' 0 8 ∧
    encodeMbr m 511 = m.magicNum.extractLsb' 8 8 := by
  unfold encodeMbr
  constructor
  · rw [dif_neg (by decide)]
    dsimp only
    rw [dif_neg (by decide), if_pos rfl]
  · rw [dif_neg (by decide)]
    dsimp only
    rw [dif_neg (by decide), if_neg (by decide)]

theorem decode_encodeMbr (m : MbrInfo) : decodeMbr (encodeMbr m) = m := by
  refine MbrInfo.ext (funext fun k => encodeMbr_code m k) (funext fun p => ?_) ?_
  · have hpart : (fun j => encodeMbr m (partByte p j)) = encodePart (m.part p) :=
      funext fun j => encodeMbr_part m p j
    show decodePart (fun j => encodeMbr m (partByte p j)) = m.part p
    rw [hpart, decode_encodePart]
  · show encodeMbr m 511 ++ encodeMbr m 510 = m.magicNum
    rw [(encodeMbr_magic m).1, (encodeMbr_magic m).2]
    exact @BitVec.extractLsb'_append_extractLsb' 8 8 m.magicNum

/-! ## Reading it -/

/-- The request of `read_mbr_info`, with `mbr_info` at `a`. -/
def mbrRequest (a : Nat) : IoRequest where
  ioType := ioRead
  secno := 0
  nsecs := 1
  buffer := a
  bsize := sectionSize

/-- `read_mbr_info`, with `ide_request` for the device's `request`. -/
def readMbrInfo (disk : Disk) (valid fuel a : Nat) (log : List Access) : Outcome :=
  match ideRequest disk valid fuel (mbrRequest a) log with
  | (.error e, log) => (.error e, log)
  | (.ok r, log) => if r = 0 then (.ok 0, log) else (.ok (-1), log)

/-- `mbr_info`, at `a`. -/
def mbrAt (m : Memory) (a : Nat) : MbrInfo := decodeMbr fun i => loadAt m (BitVec.ofNat 32 a) i

/-- The partition table, as `sfs_init` goes through it. -/
def partTable (m : MbrInfo) : List Sfs.Partition :=
  List.ofFn fun i => ⟨(m.part i).partitionType.toNat, (m.part i).startSector.toNat,
    (m.part i).nrSectors.toNat⟩

variable {s : System}

/-- It returns 0 if the request does. -/
theorem readMbrInfo_eq {disk : Disk} {valid fuel a : Nat} {log log' : List Access} {r : Kern Int}
    (h : ideRequest disk valid fuel (mbrRequest a) log = (r, log')) :
    ∃ r', readMbrInfo disk valid fuel a log = (r', log') ∧ (r' = .ok 0 ↔ r = .ok 0) := by
  unfold readMbrInfo
  rw [h]
  cases r with
  | error e => exact ⟨_, rfl, .rfl⟩
  | ok v =>
    dsimp only
    by_cases hv : v = 0
    · rw [if_pos hv, hv]
      exact ⟨_, rfl, .rfl⟩
    · rw [if_neg hv]
      exact ⟨_, rfl, ⟨nofun, fun h => absurd (Except.ok.inj h) hv⟩⟩

/-- **Reading the table.** The disk is at rest, nothing was written just before, and its first sector is
the MBR `m`. If `read_mbr_info` returns 0, `mbr_info` is `m`. Otherwise it is what it was, also if the
call does not return. In no case does anything else in memory or on the disk change. -/
theorem readMbrInfo_table {disk : Disk} {log : List Access} (h : Complies disk s log)
    (hs : s.drive.job = .idle) (hnone : s.drive.unsettled = none) {m : MbrInfo}
    (hdisk : ∀ i : Fin sectionSize, s.drive.bytes i = encodeMbr m i) (valid fuel a : Nat) :
    ∃ r new s', readMbrInfo disk valid fuel a log = (r, log ++ new) ∧ busRun s new = some s' ∧
      s'.drive.bytes = s.drive.bytes ∧
      (∀ x ∉ bytesFrom (BitVec.ofNat 32 a) sectionSize, s'.mem x = s.mem x) ∧
      mbrAt s'.mem a = if r = .ok 0 then m else mbrAt s.mem a := by
  obtain ⟨r, new, s', heq, hbus, hend⟩ := ideRequest_bus h hs valid fuel (mbrRequest a)
  rw [hnone, doomed_none] at hend
  obtain ⟨n, hmoved, hn⟩ := hend.read rfl
  have hmem : s'.mem = storeAt s.mem (BitVec.ofNat 32 a) (sectorBytes * n) fun i =>
      s.drive.bytes (sectorBytes * 0 + i) := congrArg Contents.mem hmoved
  have hbytes : s'.drive.bytes = s.drive.bytes := congrArg Contents.bytes hmoved
  have hle : n ≤ 1 := by
    obtain ⟨-, h⟩ | ⟨-, h | h⟩ := hn
    · exact h.le
    · exact h.le
    · exact h.le.trans (Nat.zero_le 1)
  have hother : ∀ x ∉ bytesFrom (BitVec.ofNat 32 a) sectionSize, s'.mem x = s.mem x := by
    intro x hx
    rw [hmem]
    refine if_neg fun hlt => hx ?_
    exact hlt.trans_le (Nat.mul_le_mul_left sectorBytes hle)
  obtain ⟨r', hcall, hanswer⟩ := readMbrInfo_eq heq
  refine ⟨r', new, s', hcall, hbus, hbytes, hother, ?_⟩
  obtain ⟨hr, h⟩ | ⟨hr, h⟩ := hn
  · obtain rfl : n = 1 := h
    rw [if_pos (hanswer.2 hr), ← decode_encodeMbr m, mbrAt]
    refine congrArg decodeMbr (funext fun i => ?_)
    have hi : i.val < sectorBytes * 1 := i.isLt
    rw [hmem, loadAt_storeAt hi (by decide), ← hdisk, Nat.mul_zero, Nat.zero_add]
  · obtain rfl : n = 0 := h.elim Nat.lt_one_iff.1 id
    rw [if_neg fun h => hr (hanswer.1 h), hmem, Nat.mul_zero, storeAt_zero]

/-- An MBR with one SFS partition. -/
def smallMbr : MbrInfo where
  mbrCode _ := 0x90
  part i := if i = 0 then ⟨0x80, ![1, 1, 0], BitVec.ofNat 8 Sfs.sfsT, ![15, 63, 0], 63, 1000⟩
    else ⟨0, ![0, 0, 0], 0, ![0, 0, 0], 0, 0⟩
  magicNum := 0xAA55

def smallDisk : System where
  mem _ := 0
  drive := ⟨fun i => if h : i < sectionSize then encodeMbr smallMbr ⟨i, h⟩ else 0, ⟨0, 0, 0, 0, 0⟩,
    .idle, false, none, fun _ _ => 0⟩

theorem readMbrInfo_table_small : ∃ r new s',
    readMbrInfo (driveStatus smallDisk) 1 1 0x7000 [] = (r, [] ++ new) ∧
      busRun smallDisk new = some s' ∧
      s'.drive.bytes = smallDisk.drive.bytes ∧
      (∀ x ∉ bytesFrom (BitVec.ofNat 32 0x7000) sectionSize, s'.mem x = smallDisk.mem x) ∧
      mbrAt s'.mem 0x7000 = if r = .ok 0 then smallMbr else mbrAt smallDisk.mem 0x7000 :=
  readMbrInfo_table (driveStatus_complies _) rfl rfl (fun i => dif_pos i.isLt) 1 1 0x7000

/-- **What `sfs_init` formats after that**, where `mbr_info` was all zeros: what the table on the disk
says, and nothing unless the table was read. -/
theorem sfsInit_after_read {s' : System} {m : MbrInfo} {a : Nat} {r : Kern Int}
    (hzero : ∀ i : Fin sectionSize, loadAt s.mem (BitVec.ofNat 32 a) i = 0)
    (htable : mbrAt s'.mem a = if r = .ok 0 then m else mbrAt s.mem a) :
    Sfs.sfsInit (partTable (mbrAt s'.mem a)) =
      if r = .ok 0 then Sfs.sfsInit (partTable m) else none := by
  rw [htable]
  split
  · rfl
  · have hnone : mbrAt s.mem a = decodeMbr fun _ => 0 := congrArg decodeMbr (funext hzero)
    rw [hnone]
    rfl

end Hurlex.Mbr
