import Hurlex.Lib.Machine

/-!
# A disk behind a task file

A drive is an array of bytes with a set of registers in front of it. A command takes a sector number of
28 bits and a number of sectors from the registers and starts a job, and the sectors then pass through
the data register one by one.

The host learns from the status register when the drive may be spoken to. A drive takes a command if it
has no job and its last status said that it is not busy, and a sector of its job passes if the last
status also asked for data (DRQ). To any other command or transfer it has no answer. A status with an
error or fault bit means that the job was given up, and that the sector written last has not arrived:
what is in that sector then is left open (`fates`). The same can happen after the last sector of a job,
when all that the host had to do is done.

Bytes go between the memory and the drive in blocks; blocks that lie one behind the other are one block
(`storeAt_storeAt`, `put_put`).

Out of scope: the time a drive has to show that it is busy, interrupts, and faults that a drive reports
later than by its next status.
-/

namespace Hurlex.Lib.Ata

open Machine

abbrev Byte := BitVec 8

/-! ## Blocks of bytes -/

/-- The memory with the `n` bytes `f` at `a`. -/
def storeAt (m : Memory) (a : Word) (n : Nat) (f : Nat → Byte) : Memory := fun x =>
  if (x - a).toNat < n then f (x - a).toNat else m x

/-- The bytes of the memory from `a` on. -/
def loadAt (m : Memory) (a : Word) (i : Nat) : Byte := m (a + BitVec.ofNat 32 i)

/-- The array with the `n` bytes `f` at `p`. -/
def put (b : Nat → Byte) (p n : Nat) (f : Nat → Byte) : Nat → Byte := fun x =>
  if p ≤ x ∧ x < p + n then f (x - p) else b x

section Blocks

variable {m : Memory} {a : Word} {b f : Nat → Byte} {p q n k i : Nat}

theorem storeAt_zero (m : Memory) (a : Word) (f : Nat → Byte) : storeAt m a 0 f = m :=
  funext fun _ => if_neg (Nat.not_lt_zero _)

theorem storeAt_storeAt (h : n + k ≤ 2 ^ 32) :
    storeAt (storeAt m a n f) (a + BitVec.ofNat 32 n) k (fun i => f (n + i)) =
      storeAt m a (n + k) f := by
  funext x
  unfold storeAt
  by_cases hk : (x - (a + BitVec.ofNat 32 n)).toNat < k
  · have hx : (x - a).toNat = n + (x - (a + BitVec.ofNat 32 n)).toNat := by bv_omega
    rw [if_pos hk, if_pos (by omega), hx]
  · rw [if_neg hk]
    by_cases hn : (x - a).toNat < n
    · rw [if_pos hn, if_pos (by omega)]
    · have hx : ¬ (x - a).toNat < n + k := by bv_omega
      rw [if_neg hn, if_neg hx]

theorem loadAt_storeAt (hi : i < n) (hn : n ≤ 2 ^ 32) : loadAt (storeAt m a n f) a i = f i := by
  unfold loadAt storeAt
  rw [add_ofNat_sub a (by omega), if_pos hi]

theorem loadAt_add (m : Memory) (a : Word) (n : Nat) :
    loadAt m (a + BitVec.ofNat 32 n) = fun i => loadAt m a (n + i) := by
  funext i
  unfold loadAt
  rw [BitVec.ofNat_add, BitVec.add_assoc]

theorem put_zero (b : Nat → Byte) (p : Nat) (f : Nat → Byte) : put b p 0 f = b :=
  funext fun _ => if_neg fun h => absurd (h.1.trans_lt h.2) (Nat.lt_irrefl p)

theorem put_put : put (put b p n f) (p + n) k (fun i => f (n + i)) = put b p (n + k) f := by
  funext x
  unfold put
  by_cases hk : p + n ≤ x ∧ x < p + n + k
  · rw [if_pos hk, if_pos (by omega)]
    exact congrArg f (by omega)
  · rw [if_neg hk]
    by_cases hn : p ≤ x ∧ x < p + n
    · rw [if_pos hn, if_pos (by omega)]
    · rw [if_neg hn, if_neg (by omega)]

theorem put_add (hi : i < n) : put b p n f (p + i) = f i := by
  unfold put
  rw [if_pos ⟨Nat.le_add_right p i, Nat.add_lt_add_left hi p⟩, Nat.add_sub_cancel_left]

/-- A block elsewhere. -/
theorem put_of_notMem (h : q < p ∨ p + n ≤ q) : put b p n f q = b q :=
  if_neg fun hq => by omega

end Blocks

/-! ## The drive -/

/-- Which way the bytes of a job go. -/
inductive Dir where
  | toHost
  | toDisk
  deriving DecidableEq, Repr

/-- What the drive is doing: the next sector of its job and the number of sectors left. -/
inductive Job where
  | idle
  | busy (dir : Dir) (lba left : Nat)
  deriving DecidableEq, Repr

/-- The registers of a command. -/
structure TaskFile where
  count : Byte
  low : Byte
  mid : Byte
  high : Byte
  device : Byte

/-- `unsettled` is the sector that was written last, until a status tells how that went, and `fates`
are the bytes that the faults to come leave in their sectors. -/
structure Drive where
  bytes : Nat → Byte
  regs : TaskFile
  job : Job
  /-- The last status lets the host go on. -/
  ready : Bool
  unsettled : Option Nat
  fates : Nat → Nat → Byte

def sectorBytes : Nat := 512

/-- The sector number in the registers. -/
def TaskFile.lba (r : TaskFile) : Nat :=
  (r.device.setWidth 4 ++ r.high ++ r.mid ++ r.low : BitVec 28).toNat

/-- The number of sectors in the registers. -/
def TaskFile.sectors (r : TaskFile) : Nat := if r.count = 0 then 256 else r.count.toNat

/-- The direction of the commands for reading and writing sectors. -/
def commandDir (v : Byte) : Option Dir :=
  if v = 0x20 then some .toHost else if v = 0x30 then some .toDisk else none

def Drive.command (d : Drive) (v : Byte) : Option Drive :=
  (commandDir v).map fun dir =>
    { d with job := .busy dir d.regs.lba d.regs.sectors, ready := false }

/-- A byte written to a register. -/
def Drive.write (d : Drive) (reg : Nat) (v : Byte) : Option Drive :=
  if d.job = .idle ∧ d.ready then
    match reg with
    | 2 => some { d with regs := { d.regs with count := v } }
    | 3 => some { d with regs := { d.regs with low := v } }
    | 4 => some { d with regs := { d.regs with mid := v } }
    | 5 => some { d with regs := { d.regs with high := v } }
    | 6 => some { d with regs := { d.regs with device := v } }
    | 7 => d.command v
    | _ => none
  else none

/-- The job is given up, and the sector written last is lost. -/
def Drive.fault (d : Drive) : Drive where
  bytes :=
    match d.unsettled with
    | some l => fun x => if x / sectorBytes = l then d.fates 0 (x % sectorBytes) else d.bytes x
    | none => d.bytes
  regs := d.regs
  job := .idle
  ready := true
  unsettled := none
  fates k := d.fates (k + 1)

/-- The host may go on, and the sector written last has arrived. -/
def Drive.settle (d : Drive) : Drive := { d with ready := true, unsettled := none }

/-- A status read from the drive. -/
def Drive.reports (d : Drive) (v : Byte) : Drive :=
  if v &&& 0x80 ≠ 0 then { d with ready := false }
  else if v &&& 0x21 ≠ 0 then d.fault
  else if d.job = .idle ∨ v &&& 0x08 ≠ 0 then d.settle
  else { d with ready := false }

/-- What a status of the drive may be: with a job to do, it is busy, has failed or asks for data. -/
def Drive.Shows (d : Drive) (v : Byte) : Prop :=
  d.job ≠ .idle → v &&& 0x80 = 0 → v &&& 0x21 = 0 → v &&& 0x08 ≠ 0

/-- A job of `count` sectors from `lba` on, after `k` of them. -/
def Job.rest (dir : Dir) (lba count k : Nat) : Job :=
  if k < count then .busy dir (lba + k) (count - k) else .idle

/-- The memory and the drive. -/
structure System where
  mem : Memory
  drive : Drive

/-- The bytes of both sides, with what the drive is doing left out. -/
structure Contents where
  mem : Memory
  bytes : Nat → Byte

def System.contents (s : System) : Contents := ⟨s.mem, s.drive.bytes⟩

/-- `n` bytes between the sectors from `lba` on and the memory at `a`. -/
def Contents.transfer (c : Contents) (dir : Dir) (lba : Nat) (a : Word) (n : Nat) : Contents :=
  match dir with
  | .toHost => { c with mem := storeAt c.mem a n fun i => c.bytes (sectorBytes * lba + i) }
  | .toDisk => { c with bytes := put c.bytes (sectorBytes * lba) n (loadAt c.mem a) }

/-- The sector that was written last when `n` sectors from `lba` on were moved. -/
def lastWritten (dir : Dir) (lba n : Nat) : Option Nat :=
  if dir = .toDisk ∧ n ≠ 0 then some (lba + n - 1) else none

/-- A sector's bytes pass through the data register. -/
def System.data (s : System) (dir : Dir) (a : Word) : Option System :=
  match s.drive.job with
  | .idle => none
  | .busy d lba left =>
    if d = dir ∧ s.drive.ready then
      let c := s.contents.transfer dir lba a sectorBytes
      some ⟨c.mem, { s.drive with
        bytes := c.bytes
        job := .rest dir lba left 1
        ready := false
        unsettled := lastWritten dir lba 1 }⟩
    else none

/-- The same contents, up to what a fault has left in sector `o`. -/
structure Contents.Loses (o : Option Nat) (c c' : Contents) : Prop where
  mem : c'.mem = c.mem
  bytes : ∀ x, x / sectorBytes ∉ o → c'.bytes x = c.bytes x

/-! ## What a job moves -/

section Jobs

variable {s : System} {dir : Dir} {lba n k : Nat} {a : Word}

theorem transfer_zero (c : Contents) (dir : Dir) (lba : Nat) (a : Word) :
    c.transfer dir lba a 0 = c := by
  cases dir with
  | toHost => rw [Contents.transfer, storeAt_zero]
  | toDisk => rw [Contents.transfer, put_zero]

/-- **Sectors one behind the other are one transfer.** -/
theorem transfer_sectors (c : Contents) (dir : Dir) (lba : Nat) (a : Word)
    (h : sectorBytes * (n + k) ≤ 2 ^ 32) :
    (c.transfer dir lba a (sectorBytes * n)).transfer dir (lba + n)
      (a + BitVec.ofNat 32 (sectorBytes * n)) (sectorBytes * k) =
      c.transfer dir lba a (sectorBytes * (n + k)) := by
  rw [Nat.mul_add] at h ⊢
  cases dir with
  | toHost =>
    unfold Contents.transfer
    simp only [Nat.mul_add, Nat.add_assoc]
    rw [← storeAt_storeAt h]
  | toDisk =>
    unfold Contents.transfer
    simp only [Nat.mul_add, loadAt_add, ← put_put]

theorem rest_zero (h : 0 < n) : Job.rest dir lba n 0 = .busy dir lba n := if_pos h

/-- **A sector more of a job**, when the drive asks for it. -/
theorem data_rest (h : s.drive.job = .rest dir lba n k) (hk : k < n) (hready : s.drive.ready) :
    ∃ s', s.data dir a = some s' ∧
      s'.contents = s.contents.transfer dir (lba + k) a sectorBytes ∧
      s'.drive.job = .rest dir lba n (k + 1) ∧
      s'.drive.unsettled = lastWritten dir lba (k + 1) := by
  rw [Job.rest, if_pos hk] at h
  let c := s.contents.transfer dir (lba + k) a sectorBytes
  have hdata : s.data dir a = some ⟨c.mem, { s.drive with
      bytes := c.bytes
      job := .rest dir (lba + k) (n - k) 1
      ready := false
      unsettled := lastWritten dir (lba + k) 1 }⟩ := by
    rw [System.data, h]
    exact if_pos ⟨rfl, hready⟩
  refine ⟨_, hdata, rfl, ?_, ?_⟩
  · show Job.rest dir (lba + k) (n - k) 1 = _
    unfold Job.rest
    by_cases hlast : k + 1 < n
    · rw [if_pos hlast, if_pos (by omega), Nat.add_assoc, Nat.sub_sub]
    · rw [if_neg hlast, if_neg (by omega)]
  · show lastWritten dir (lba + k) 1 = _
    unfold lastWritten
    simp only [Nat.add_assoc, ne_eq, Nat.add_eq_zero_iff, Nat.one_ne_zero, and_false,
      not_false_eq_true, and_true]

/-- A sector number of 28 bits comes back out of the registers. -/
theorem lba_split {v : Nat} (h : v < 2 ^ 28) (count device : Byte)
    (hd : device.setWidth 4 = BitVec.ofNat 4 (v / 2 ^ 24)) :
    TaskFile.lba ⟨count, BitVec.ofNat 8 v, BitVec.ofNat 8 (v / 2 ^ 8), BitVec.ofNat 8 (v / 2 ^ 16),
      device⟩ = v := by
  unfold TaskFile.lba
  rw [hd]
  simp only [BitVec.toNat_append, BitVec.toNat_ofNat]
  rw [← Nat.shiftLeft_add_eq_or_of_lt (by omega), ← Nat.shiftLeft_add_eq_or_of_lt (by omega),
    ← Nat.shiftLeft_add_eq_or_of_lt (by omega)]
  simp only [Nat.shiftLeft_eq]
  omega

end Jobs

/-! ## What a fault costs -/

section Faults

variable {o : Option Nat} {c c' : Contents}

theorem Contents.Loses.refl (o : Option Nat) (c : Contents) : c.Loses o c := ⟨rfl, fun _ _ => rfl⟩

/-- With no sector to lose, nothing is lost. -/
theorem Contents.Loses.eq (h : c.Loses none c') : c' = c := by
  obtain ⟨m, b⟩ := c
  obtain ⟨m', b'⟩ := c'
  obtain rfl : m' = m := h.mem
  obtain rfl : b' = b := funext fun x => h.bytes x nofun
  rfl

theorem Contents.Loses.of_none (h : c.Loses none c') : c.Loses o c' := h.eq ▸ .refl o c

/-- **A fault** costs the sector that was written last, and no other. -/
theorem fault_loses (s : System) :
    s.contents.Loses s.drive.unsettled (System.contents { s with drive := s.drive.fault }) := by
  refine ⟨rfl, fun x hx => ?_⟩
  show s.drive.fault.bytes x = s.drive.bytes x
  unfold Drive.fault
  cases hlast : s.drive.unsettled with
  | none => rfl
  | some l =>
    rw [hlast] at hx
    exact if_neg fun (h : x / sectorBytes = l) => hx (congrArg some h.symm)

end Faults

end Hurlex.Lib.Ata
