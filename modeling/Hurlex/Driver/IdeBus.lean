import Hurlex.Driver.Ide
import Hurlex.Lib.Ata

/-!
# The accesses of a disk command, played to a drive (`driver/ide.c`, lines 119 to 131 and 227 to 279)

`ide_wait_ready`, the registers of a command, and the loops of `ide_read_secs` and `ide_write_secs`,
each followed through the drive it talks to. Its status register is still a function of all that has
happened. `Complies` is what is assumed of it: a drive with a job to do is busy, reports an error or
asks for data. `ide_wait_ready` does not look at DRQ, and without this the words would go to a drive
that does not take them.

The loops look at the status before each sector and not after the last one, so an error there goes by
unseen: the next request waits without looking for errors. `ideSecs_bus` says in which state a command
leaves the drive, and `doomed` which sector such an error takes.
-/

namespace Hurlex.Ide

open Lib.Machine Lib.Ata

/-! ## The drive at the ports -/

/-- An access, if the drive understands it. -/
def busStep (s : System) : Access → Option System
  | .inb port v =>
    some (if port = iobase + isaStatus then { s with drive := s.drive.reports v } else s)
  | .outb port v =>
    if iobase ≤ port ∧ port < iobase + 8 then
      (s.drive.write (port - iobase) v).map fun d => { s with drive := d }
    else some s
  | .insl port addr words =>
    if port = iobase ∧ 4 * words = sectorBytes then s.data .toHost (BitVec.ofNat 32 addr) else none
  | .outsl port addr words =>
    if port = iobase ∧ 4 * words = sectorBytes then s.data .toDisk (BitVec.ofNat 32 addr) else none

def busRun (s : System) (log : List Access) : Option System := log.foldlM busStep s

/-- From `s` on, where `log` has happened, the status is one that the drive may show. -/
def Complies (disk : Disk) (s : System) (log : List Access) : Prop :=
  ∀ new s', busRun s new = some s' → s'.drive.Shows (disk (log ++ new))

variable {disk : Disk} {s s' : System} {log new l l' : List Access} {dir : Dir}

theorem busRun_append (h : busRun s l = some s') : busRun s (l ++ l') = busRun s' l' := by
  unfold busRun at h ⊢
  rw [List.foldlM_append, h]
  rfl

theorem busRun_cons {a : Access} (h : busStep s a = some s') : busRun s (a :: l) = busRun s' l := by
  unfold busRun
  rw [List.foldlM_cons, h]
  rfl

theorem busRun_one {a : Access} (h : busStep s a = some s') : busRun s [a] = some s' := busRun_cons h

theorem Complies.after (h : Complies disk s log) (hrun : busRun s new = some s') :
    Complies disk s' (log ++ new) := by
  intro l s₁ hl
  rw [List.append_assoc]
  exact h (new ++ l) s₁ ((busRun_append hrun).trans hl)

/-- A drive that is never busy and has no faults. -/
def driveStatus (s : System) : Disk := fun log =>
  match busRun s log with
  | some s' => if s'.drive.job = .idle then 0x40 else 0x48
  | none => 0x40

theorem driveStatus_complies (s : System) : Complies (driveStatus s) s [] := by
  intro new s' hrun hjob _ _
  have hstatus : driveStatus s new = 0x48 := by
    unfold driveStatus
    rw [hrun]
    exact if_neg hjob
  rw [List.nil_append, hstatus]
  decide

def settled (s : System) : System := { s with drive := s.drive.settle }

def faulted (s : System) : System := { s with drive := s.drive.fault }

/-- A look at the status register. -/
theorem busStep_status (v : Byte) : busStep s (.inb (iobase + isaStatus) v) =
    some { s with drive := s.drive.reports v } :=
  congrArg some (if_pos rfl)

theorem reports_busy {v : Byte} (h : v &&& ideBsy ≠ 0) :
    s.drive.reports v = { s.drive with ready := false } := if_pos h

theorem reports_error {v : Byte} (h : v &&& ideBsy = 0) (hfails : v &&& (ideDf ||| ideErr) ≠ 0) :
    s.drive.reports v = s.drive.fault := (if_neg (not_not_intro h)).trans (if_pos hfails)

theorem reports_ready {v : Byte} (hshows : s.drive.Shows v) (h : v &&& ideBsy = 0)
    (hfine : v &&& (ideDf ||| ideErr) = 0) : s.drive.reports v = s.drive.settle := by
  refine (if_neg (not_not_intro h)).trans ((if_neg (not_not_intro hfine)).trans (if_pos ?_))
  by_cases hjob : s.drive.job = .idle
  · exact .inl hjob
  · exact .inr (hshows hjob h hfine)

theorem busStep_insl (s : System) (addr : Nat) :
    busStep s (.insl iobase addr (sectsize / 4)) = s.data .toHost (BitVec.ofNat 32 addr) := by
  rw [busStep]
  exact if_pos ⟨rfl, rfl⟩

theorem busStep_outsl (s : System) (addr : Nat) :
    busStep s (.outsl iobase addr (sectsize / 4)) = s.data .toDisk (BitVec.ofNat 32 addr) := by
  rw [busStep]
  exact if_pos ⟨rfl, rfl⟩

/-- How waiting ends, with errors looked for or not. -/
inductive Waited (disk : Disk) (fuel : Nat) (log new : List Access) (s : System) : System → Prop where
  | stays (heq : ∀ check, ideWaitReady disk iobase check fuel log = (.error .noReturn, log ++ new))
      {s' : System} (hcontents : s'.contents = s.contents) : Waited disk fuel log new s s'
  | fine (heq : ∀ check, ideWaitReady disk iobase check fuel log = (.ok 0, log ++ new)) :
      Waited disk fuel log new s (settled s)
  | fails (heq : ideWaitReady disk iobase true fuel log = (.ok (-1), log ++ new))
      (hunseen : ideWaitReady disk iobase false fuel log = (.ok 0, log ++ new)) :
      Waited disk fuel log new s (faulted s)

/-- One more look, at a busy drive. -/
theorem Waited.look {fuel : Nat} {v : Byte}
    (h : Waited disk fuel (log ++ [.inb (iobase + isaStatus) v]) new
      { s with drive := { s.drive with ready := false } } s')
    (hlook : ∀ check, ideWaitReady disk iobase check (fuel + 1) log =
      ideWaitReady disk iobase check fuel (log ++ [.inb (iobase + isaStatus) v])) :
    Waited disk (fuel + 1) log (.inb (iobase + isaStatus) v :: new) s s' := by
  have hlog : log ++ .inb (iobase + isaStatus) v :: new =
      log ++ [.inb (iobase + isaStatus) v] ++ new := by
    rw [List.append_assoc]
    rfl
  cases h with
  | stays heq hcontents =>
    exact .stays (fun check => by rw [hlook, heq, hlog]) hcontents
  | fine heq => exact .fine fun check => by rw [hlook, heq, hlog]
  | fails heq hunseen =>
    exact .fails (by rw [hlook, heq, hlog]) (by rw [hlook, hunseen, hlog])

/-- **Waiting**: the drive has settled, or a fault has struck, or it is still busy. -/
theorem ideWaitReady_bus (h : Complies disk s log) (fuel : Nat) :
    ∃ new s', busRun s new = some s' ∧ Waited disk fuel log new s s' := by
  induction fuel generalizing s log with
  | zero => exact ⟨[], s, rfl, .stays (fun _ => by rw [List.append_nil]; rfl) rfl⟩
  | succ fuel ih =>
    have hstep := @busStep_status s (disk log)
    have hshows : s.drive.Shows (disk log) := by
      have hnow := h [] s rfl
      rwa [List.append_nil] at hnow
    by_cases hbusy : disk log &&& ideBsy ≠ 0
    · rw [reports_busy hbusy] at hstep
      obtain ⟨new, s', hrun, hwaited⟩ := ih (h.after (busRun_one hstep))
      refine ⟨_, s', (busRun_cons hstep).trans hrun, hwaited.look fun check => ?_⟩
      rw [ideWaitReady]
      exact if_pos hbusy
    rw [not_not] at hbusy
    have hlook : ∀ check, ideWaitReady disk iobase check (fuel + 1) log =
        if check = true ∧ disk log &&& (ideDf ||| ideErr) ≠ 0 then
          (.ok (-1), log ++ [.inb (iobase + isaStatus) (disk log)])
        else (.ok 0, log ++ [.inb (iobase + isaStatus) (disk log)]) := by
      intro check
      rw [ideWaitReady]
      exact if_neg (not_not_intro hbusy)
    by_cases hfails : disk log &&& (ideDf ||| ideErr) ≠ 0
    · rw [reports_error hbusy hfails] at hstep
      refine ⟨_, _, busRun_one hstep, .fails ?_ ?_⟩
      · rw [hlook, if_pos ⟨rfl, hfails⟩]
      · rw [hlook, if_neg fun hc => Bool.false_ne_true hc.1]
    · rw [reports_ready hshows hbusy (not_not.1 hfails)] at hstep
      refine ⟨_, _, busRun_one hstep, .fine fun check => ?_⟩
      rw [hlook, if_neg fun hc => hfails hc.2]

/-! ## The loop over the sectors -/

/-- How the loop ends, with `nsecs` sectors to go from `lba + k` on and the memory at `a`. -/
inductive Ended (dir : Dir) (lba count k nsecs : Nat) (a : Word) (c : Contents) :
    Kern Int → System → Prop where
  | moved {s : System} (hmoved : s.contents = c.transfer dir (lba + k) a (sectorBytes * nsecs))
      (hjob : s.drive.job = .rest dir lba count (k + nsecs))
      (hlast : s.drive.unsettled = lastWritten dir lba (k + nsecs)) :
      Ended dir lba count k nsecs a c (.ok 0) s
  | failed {s : System} {n : Nat} (hn : n < nsecs)
      (hmoved : (c.transfer dir (lba + k) a (sectorBytes * n)).Loses (lastWritten dir lba (k + n))
        s.contents)
      (hjob : s.drive.job = .idle) (hlast : s.drive.unsettled = none) :
      Ended dir lba count k nsecs a c (.ok (-1)) s
  | stays {s : System} {n : Nat} (hn : n < nsecs)
      (hmoved : s.contents = c.transfer dir (lba + k) a (sectorBytes * n)) :
      Ended dir lba count k nsecs a c (.error .noReturn) s

theorem ofNat_u32_add (addr n : Nat) :
    BitVec.ofNat 32 (u32 (addr + n)) = BitVec.ofNat 32 addr + BitVec.ofNat 32 n := by
  rw [← BitVec.ofNat_add]
  exact BitVec.eq_of_toNat_eq (by simp [u32])

/-- A sector in front of those that the loop has moved. -/
theorem Ended.sector {lba count k nsecs : Nat} {a : Word} {c : Contents} {r : Kern Int}
    (h : Ended dir lba count (k + 1) nsecs (a + BitVec.ofNat 32 sectorBytes)
      (c.transfer dir (lba + k) a sectorBytes) r s)
    (hsize : sectorBytes * (nsecs + 1) ≤ 2 ^ 32) : Ended dir lba count k (nsecs + 1) a c r s := by
  have hjoin : ∀ n ≤ nsecs, (c.transfer dir (lba + k) a sectorBytes).transfer dir (lba + (k + 1))
      (a + BitVec.ofNat 32 sectorBytes) (sectorBytes * n) =
        c.transfer dir (lba + k) a (sectorBytes * (n + 1)) := by
    intro n hn
    have hsum : sectorBytes * (1 + n) ≤ 2 ^ 32 :=
      (Nat.mul_le_mul_left _ (by omega)).trans hsize
    have h := transfer_sectors c dir (lba + k) a hsum
    rwa [Nat.mul_one, Nat.add_comm 1 n] at h
  have hcount : ∀ n, k + 1 + n = k + (n + 1) := fun n => by omega
  cases h with
  | moved hmoved hjob hlast =>
    rw [hjoin nsecs le_rfl] at hmoved
    rw [hcount] at hjob hlast
    exact .moved hmoved hjob hlast
  | failed hn hmoved hjob hlast =>
    rw [hjoin _ hn.le, hcount] at hmoved
    exact .failed (Nat.succ_lt_succ hn) hmoved hjob hlast
  | stays hn hmoved =>
    rw [hjoin _ hn.le] at hmoved
    exact .stays (Nat.succ_lt_succ hn) hmoved

/-- **The loop**, in the middle of a job of which `k` sectors are done. -/
theorem moveSecs_bus {move : Nat → Access}
    (hmove : ∀ s addr, busStep s (move addr) = s.data dir (BitVec.ofNat 32 addr))
    {lba count : Nat} (fuel nsecs k addr : Nat) (h : Complies disk s log)
    (hjob : s.drive.job = .rest dir lba count k) (hlast : s.drive.unsettled = lastWritten dir lba k)
    (hn : k + nsecs ≤ count) (hsize : sectorBytes * nsecs ≤ 2 ^ 32) :
    ∃ r new s', moveSecs disk move fuel nsecs addr 0 log = (r, log ++ new) ∧
      busRun s new = some s' ∧
      Ended dir lba count k nsecs (BitVec.ofNat 32 addr) s.contents r s' := by
  induction nsecs generalizing k addr log s with
  | zero =>
    refine ⟨.ok 0, [], s, by rw [List.append_nil]; rfl, rfl, .moved ?_ hjob hlast⟩
    rw [Nat.mul_zero, transfer_zero]
  | succ nsecs ih =>
    obtain ⟨wait, s₁, hbus, hwaited⟩ := ideWaitReady_bus h fuel
    have hnone : s.contents =
        s.contents.transfer dir (lba + k) (BitVec.ofNat 32 addr) (sectorBytes * 0) :=
      (transfer_zero ..).symm
    rw [moveSecs]
    cases hwaited with
    | stays heq hcontents =>
      rw [heq]
      exact ⟨_, wait, s₁, rfl, hbus, .stays (Nat.succ_pos _) (hcontents.trans hnone)⟩
    | fails heq _ =>
      have hloses := fault_loses s
      rw [hlast, hnone] at hloses
      rw [heq]
      exact ⟨_, wait, _, rfl, hbus, .failed (Nat.succ_pos _) hloses rfl rfl⟩
    | fine heq =>
      obtain ⟨s₂, hdata, hcontents, hrest, hlast'⟩ :=
        @data_rest (settled s) dir lba count k (BitVec.ofNat 32 addr) hjob (by omega) rfl
      have hmoved : busRun s (wait ++ [move addr]) = some s₂ := by
        rw [busRun_append hbus]
        exact busRun_one ((hmove _ addr).trans hdata)
      obtain ⟨r, new, s', hloop, hbus', hend⟩ := ih (k + 1) (u32 (addr + sectsize)) (h.after hmoved)
        hrest hlast' (by omega) (by rw [Nat.mul_succ] at hsize; omega)
      refine ⟨r, wait ++ [move addr] ++ new, s', ?_, ?_, ?_⟩
      · rw [heq]
        dsimp only
        rw [if_neg (not_not_intro rfl), List.append_assoc log, hloop, List.append_assoc]
      · rw [busRun_append hmoved, hbus']
      · rw [hcontents, ofNat_u32_add] at hend
        exact hend.sector hsize

/-! ## Commands -/

theorem ofNat_and_mask (n : Nat) : BitVec.ofNat 8 (n &&& 0xFF) = BitVec.ofNat 8 n := by
  refine BitVec.eq_of_toNat_eq ?_
  rw [BitVec.toNat_ofNat, BitVec.toNat_ofNat, show 0xFF = 2 ^ 8 - 1 from rfl,
    Nat.and_two_pow_sub_one_eq_mod, Nat.mod_mod]

/-- The drive number stands in front of the high bits of the sector number. -/
theorem sdh_low (n : Nat) :
    (BitVec.ofNat 8 (0xE0 ||| (n &&& 0xF))).setWidth 4 = BitVec.ofNat 4 n := by
  refine BitVec.eq_of_toNat_eq ?_
  rw [BitVec.toNat_setWidth, BitVec.toNat_ofNat, BitVec.toNat_ofNat,
    Nat.mod_mod_of_dvd _ (by decide), show 0xF = 2 ^ 4 - 1 from rfl,
    ← Nat.and_two_pow_sub_one_eq_mod _ 4, Nat.and_or_distrib_right, Nat.and_assoc, Nat.and_self]
  rw [show 0xE0 &&& (2 ^ 4 - 1) = 0 from rfl, Nat.zero_or, Nat.and_two_pow_sub_one_eq_mod]

/-- The registers after a command. -/
def commandRegs (secno nsecs : Nat) : TaskFile where
  count := BitVec.ofNat 8 nsecs
  low := BitVec.ofNat 8 (secno &&& 0xFF)
  mid := BitVec.ofNat 8 ((secno >>> 8) &&& 0xFF)
  high := BitVec.ofNat 8 ((secno >>> 16) &&& 0xFF)
  device := BitVec.ofNat 8 (0xE0 ||| ((secno >>> 24) &&& 0xF))

theorem commandRegs_lba {secno : Nat} (h : secno < maxDiskNsecs) (nsecs : Nat) :
    (commandRegs secno nsecs).lba = secno := by
  unfold commandRegs
  rw [ofNat_and_mask, ofNat_and_mask, ofNat_and_mask, Nat.shiftRight_eq_div_pow,
    Nat.shiftRight_eq_div_pow]
  refine lba_split h _ _ ?_
  rw [sdh_low, Nat.shiftRight_eq_div_pow]

/-- The sectors a command asks for: none stands for 256. -/
def asked (nsecs : Nat) : Nat := if nsecs = 0 then 256 else nsecs

theorem commandRegs_sectors {nsecs : Nat} (h : nsecs ≤ maxNsecs) (secno : Nat) :
    (commandRegs secno nsecs).sectors = asked nsecs := by
  have hlt : nsecs < 2 ^ 8 := Nat.lt_of_le_of_lt h (by decide)
  have hcount : (BitVec.ofNat 8 nsecs).toNat = nsecs := by
    rw [BitVec.toNat_ofNat, Nat.mod_eq_of_lt hlt]
  unfold TaskFile.sectors asked commandRegs
  by_cases hzero : nsecs = 0
  · rw [if_pos hzero, hzero]
    rfl
  · have hne : BitVec.ofNat 8 nsecs ≠ 0 := fun h => hzero (by rw [← hcount, h]; rfl)
    rw [if_neg hzero, if_neg hne, hcount]

/-- A command to a drive that takes one. -/
theorem busRun_command {secno nsecs : Nat} {cmd : Byte} (hs : s.drive.job = .idle)
    (hready : s.drive.ready) (hcmd : commandDir cmd = some dir) (hsecno : secno < maxDiskNsecs)
    (hn : nsecs ≤ maxNsecs) :
    ∃ s', busRun s (command secno nsecs cmd) = some s' ∧ s'.contents = s.contents ∧
      s'.drive.job = .rest dir secno (asked nsecs) 0 ∧ s'.drive.unsettled = s.drive.unsettled := by
  have hpos : 0 < asked nsecs := by
    unfold asked
    split <;> omega
  obtain ⟨m, b, regs, job, ready, o, fates⟩ := s
  obtain rfl : job = .idle := hs
  obtain rfl : ready = true := hready
  have hlast : (Drive.mk b (commandRegs secno nsecs) .idle true o fates).command cmd =
      some ⟨b, commandRegs secno nsecs, .rest dir secno (asked nsecs) 0, false, o, fates⟩ := by
    rw [Drive.command, hcmd]
    show some _ = some _
    dsimp only
    rw [commandRegs_lba hsecno, commandRegs_sectors hn, rest_zero hpos]
  have hstep : busStep ⟨m, ⟨b, commandRegs secno nsecs, .idle, true, o, fates⟩⟩
      (.outb (iobase + isaCommand) cmd) =
      some ⟨m, ⟨b, commandRegs secno nsecs, .rest dir secno (asked nsecs) 0, false, o, fates⟩⟩ :=
    congrArg (Option.map (System.mk m)) hlast
  exact ⟨_, busRun_one hstep, rfl, rfl, rfl⟩

/-- The sector that a fault can still cost, where `log` has happened: none, if waiting shows no
error. -/
def doomed (disk : Disk) (fuel : Nat) (o : Option Nat) (log : List Access) : Option Nat :=
  if (ideWaitReady disk iobase true fuel log).1 = .ok 0 then none else o

/-- **A command and its loop**, on a drive that has settled. -/
theorem commanded_bus {move : Nat → Access}
    (hmove : ∀ s addr, busStep s (move addr) = s.data dir (BitVec.ofNat 32 addr)) {cmd : Byte}
    (hcmd : commandDir cmd = some dir) (h : Complies disk s log) (hs : s.drive.job = .idle)
    (hready : s.drive.ready) (hnone : s.drive.unsettled = none) {secno nsecs : Nat}
    (hsecno : secno < maxDiskNsecs) (hn : nsecs ≤ maxNsecs) (fuel addr : Nat) :
    ∃ r new s', moveSecs disk move fuel nsecs addr 0 (log ++ command secno nsecs cmd) =
        (r, log ++ new) ∧
      busRun s new = some s' ∧
      Ended dir secno (asked nsecs) 0 nsecs (BitVec.ofNat 32 addr) s.contents r s' := by
  have hasked : 0 + nsecs ≤ asked nsecs := by
    unfold asked
    split <;> omega
  have hsize : sectorBytes * nsecs ≤ 2 ^ 32 := (Nat.mul_le_mul_left _ hn).trans (by decide)
  obtain ⟨s₁, hcommand, hcontents, hrest, hlast⟩ := busRun_command hs hready hcmd hsecno hn
  have hlast' : s₁.drive.unsettled = lastWritten dir secno 0 := by
    rw [hlast, hnone]
    exact (if_neg fun h => h.2 rfl).symm
  obtain ⟨r, new, s', hloop, hbus, hend⟩ := moveSecs_bus hmove fuel nsecs 0 addr (h.after hcommand)
    hrest hlast' hasked hsize
  rw [hcontents] at hend
  refine ⟨r, command secno nsecs cmd ++ new, s', ?_, ?_, hend⟩
  · rw [hloop, List.append_assoc]
  · rw [busRun_append hcommand, hbus]

theorem doomed_none (disk : Disk) (fuel : Nat) (log : List Access) :
    doomed disk fuel none log = none := ite_self _

/-- **Reading or writing**, on a drive at rest: it stops before the first sector, or goes on from what
the wait before the command has cost. -/
theorem ideSecs_bus {move : Nat → Access}
    (hmove : ∀ s addr, busStep s (move addr) = s.data dir (BitVec.ofNat 32 addr)) {cmd : Byte}
    (hcmd : commandDir cmd = some dir) (h : Complies disk s log) (hs : s.drive.job = .idle)
    (info : String) (valid fuel secno addr nsecs : Nat) :
    (∃ e new s', ideSecs disk info cmd move valid fuel secno addr nsecs log = (.error e, log ++ new) ∧
        busRun s new = some s' ∧ s'.contents = s.contents) ∨
      nsecs ≤ maxNsecs ∧ secno + nsecs ≤ maxDiskNsecs ∧ ∃ r new s' c,
        ideSecs disk info cmd move valid fuel secno addr nsecs log = (r, log ++ new) ∧
        busRun s new = some s' ∧ s.contents.Loses (doomed disk fuel s.drive.unsettled log) c ∧
        Ended dir secno (asked nsecs) 0 nsecs (BitVec.ofNat 32 addr) c r s' := by
  unfold ideSecs
  by_cases hnsecs : nsecs ≤ maxNsecs ∧ valid = 1
  case neg =>
    rw [if_pos hnsecs]
    exact .inl ⟨_, [], s, by rw [List.append_nil], rfl, rfl⟩
  rw [if_neg (not_not_intro hnsecs)]
  by_cases hsecno : secno < maxDiskNsecs ∧ u32 (secno + nsecs) ≤ maxDiskNsecs
  case neg =>
    rw [if_pos hsecno]
    exact .inl ⟨_, [], s, by rw [List.append_nil], rfl, rfl⟩
  rw [if_neg (not_not_intro hsecno)]
  obtain ⟨hn, -⟩ := hnsecs
  obtain ⟨hlt, hsum⟩ := hsecno
  rw [u32_of_lt (by simp only [maxNsecs, maxDiskNsecs] at hn hlt ⊢; omega)] at hsum
  obtain ⟨wait, s₁, hbus, hwaited⟩ := ideWaitReady_bus h fuel
  cases hwaited with
  | stays heq hcontents =>
    rw [heq]
    exact .inl ⟨_, wait, s₁, rfl, hbus, hcontents⟩
  | fine heq =>
    obtain ⟨r, new, s', hloop, hbus', hend⟩ :=
      commanded_bus hmove hcmd (h.after hbus) hs rfl rfl hlt hn fuel addr
    refine .inr ⟨hn, hsum, r, wait ++ new, s', s.contents, ?_, ?_, .refl _ _, hend⟩
    · rw [heq]
      dsimp only
      rw [hloop, List.append_assoc]
    · rw [busRun_append hbus, hbus']
  | fails heq hunseen =>
    obtain ⟨r, new, s', hloop, hbus', hend⟩ :=
      commanded_bus hmove hcmd (h.after hbus) rfl rfl rfl hlt hn fuel addr
    have hlost : doomed disk fuel s.drive.unsettled log = s.drive.unsettled := by
      have hfails : ¬ (Except.ok (-1) : Kern Int) = .ok 0 := by decide
      unfold doomed
      rw [heq]
      exact if_neg hfails
    refine .inr ⟨hn, hsum, r, wait ++ new, s', _, ?_, ?_, hlost.symm ▸ fault_loses s, hend⟩
    · rw [hunseen]
      dsimp only
      rw [hloop, List.append_assoc]
    · rw [busRun_append hbus, hbus']

end Hurlex.Ide
