import Mathlib.Data.BitVec
import Hurlex.Types

/-!
# Disk requests (`driver/ide.c`)

`ide_request` compares the size of the caller's buffer with `512 * nsecs`, a product of 32 bits, and
hands the request to `ide_read_secs` or `ide_write_secs`. These two differ in the command and in the
direction the words of a sector go; what they demand of `nsecs` and `secno` they assert.

The disk is a function from all that has happened at its ports to the value of its status register, so
it may do as it likes. A busy disk is waited for without a limit; here each wait has `fuel` looks at
the register.

* **`moveSecs_moves`**: the loop over the sectors moves all of them, or stops where the disk reports
  an error or stays busy.
* **`exact_iff`**: requests are refused if the buffer is too small, and otherwise kept to, unless the
  product wraps to something that fits: then the assertions see far too many sectors.

Out of scope: finding the disk (`ide_init`), and the data themselves.
-/

namespace Hurlex.Ide

abbrev Byte := BitVec 8

def sectsize : Nat := 512

def ideBsy : Byte := 0x80
def ideDf : Byte := 0x20
def ideErr : Byte := 0x01

def ideCmdRead : Byte := 0x20
def ideCmdWrite : Byte := 0x30

def iobase : Nat := 0x1F0
def ioctrl : Nat := 0x3F4

def isaCtrl : Nat := 0x02
def isaSeccnt : Nat := 0x02
def isaSector : Nat := 0x03
def isaCylLo : Nat := 0x04
def isaCylHi : Nat := 0x05
def isaSdh : Nat := 0x06
def isaCommand : Nat := 0x07
def isaStatus : Nat := 0x07

def maxNsecs : Nat := 128
def maxDiskNsecs : Nat := 0x10000000

/-- `IO_READ`. -/
def ioRead : Nat := 0

/-- `IO_WRITE`. -/
def ioWrite : Nat := 1

/-- `io_request_t`. -/
structure IoRequest where
  ioType : Nat
  secno : Nat
  nsecs : Nat
  buffer : Nat
  bsize : Nat

/-- What happens at a port: a byte read or written, or words moved to or from memory. -/
inductive Access where
  | inb (port : Nat) (value : Byte)
  | outb (port : Nat) (value : Byte)
  | insl (port addr words : Nat)
  | outsl (port addr words : Nat)
  deriving DecidableEq

/-- The status register after all that has happened. -/
abbrev Disk := List Access → Byte

/-- How a call ends, and all that has happened then. -/
abbrev Outcome := Kern Int × List Access

section Driver

variable (disk : Disk)

/-- `ide_wait_ready`, with `fuel` looks at the register. -/
def ideWaitReady (iobase : Nat) (checkError : Bool) : Nat → List Access → Outcome
  | 0, log => (.error .noReturn, log)
  | fuel + 1, log =>
    let r := disk log
    let log := log ++ [.inb (iobase + isaStatus) r]
    if r &&& ideBsy ≠ 0 then ideWaitReady iobase checkError fuel log
    else if checkError ∧ r &&& (ideDf ||| ideErr) ≠ 0 then (.ok (-1), log)
    else (.ok 0, log)

/-- The loop over the sectors, with `nsecs` left and `ret` so far. -/
def moveSecs (move : Nat → Access) (fuel : Nat) : Nat → Nat → Int → List Access → Outcome
  | 0, _, ret, log => (.ok ret, log)
  | nsecs + 1, addr, _, log =>
    match ideWaitReady disk iobase true fuel log with
    | (.error e, log) => (.error e, log)
    | (.ok ret, log) =>
      if ret ≠ 0 then (.ok ret, log)
      else moveSecs move fuel nsecs (u32 (addr + sectsize)) ret (log ++ [move addr])

/-- The bytes a command is given with. -/
def command (secno nsecs : Nat) (cmd : Byte) : List Access :=
  [.outb (ioctrl + isaCtrl) 0,
    .outb (iobase + isaSeccnt) (BitVec.ofNat 8 nsecs),
    .outb (iobase + isaSector) (BitVec.ofNat 8 (secno &&& 0xFF)),
    .outb (iobase + isaCylLo) (BitVec.ofNat 8 ((secno >>> 8) &&& 0xFF)),
    .outb (iobase + isaCylHi) (BitVec.ofNat 8 ((secno >>> 16) &&& 0xFF)),
    .outb (iobase + isaSdh) (BitVec.ofNat 8 (0xE0 ||| ((secno >>> 24) &&& 0xF))),
    .outb (iobase + isaCommand) cmd]

/-- What reading and writing have in common. -/
def ideSecs (info : String) (cmd : Byte) (move : Nat → Access) (valid fuel secno addr nsecs : Nat)
    (log : List Access) : Outcome :=
  if ¬ (nsecs ≤ maxNsecs ∧ valid = 1) then (.error (.panic info), log)
  else if ¬ (secno < maxDiskNsecs ∧ u32 (secno + nsecs) ≤ maxDiskNsecs) then
    (.error (.panic "secno error!"), log)
  else
    match ideWaitReady disk iobase false fuel log with
    | (.error e, log) => (.error e, log)
    | (.ok _, log) => moveSecs disk move fuel nsecs addr 0 (log ++ command secno nsecs cmd)

def ideReadSecs (valid fuel secno dst nsecs : Nat) (log : List Access) : Outcome :=
  ideSecs disk "nsecs or ide error!" ideCmdRead (fun dst => .insl iobase dst (sectsize / 4))
    valid fuel secno dst nsecs log

def ideWriteSecs (valid fuel secno src nsecs : Nat) (log : List Access) : Outcome :=
  ideSecs disk "nsecs or ide error" ideCmdWrite (fun src => .outsl iobase src (sectsize / 4))
    valid fuel secno src nsecs log

/-- `ide_request`, with `valid` for `ide_device.valid`. -/
def ideRequest (valid fuel : Nat) (req : IoRequest) (log : List Access) : Outcome :=
  if req.ioType = ioRead then
    if req.bsize < u32 (sectsize * req.nsecs) then (.ok (-1), log)
    else ideReadSecs disk valid fuel req.secno req.buffer req.nsecs log
  else if req.ioType = ioWrite then
    if req.bsize < u32 (sectsize * req.nsecs) then (.ok (-1), log)
    else ideWriteSecs disk valid fuel req.secno req.buffer req.nsecs log
  else (.ok (-1), log)

end Driver

/-! ## What is moved -/

/-- The bytes moved at a port. -/
def Access.bytes : Access → Nat
  | inb _ _ => 0
  | outb _ _ => 0
  | insl _ _ words => 4 * words
  | outsl _ _ words => 4 * words

def moved : List Access → Nat
  | [] => 0
  | a :: log => a.bytes + moved log

/-- The status says that the last command has failed. -/
def Fails (r : Byte) : Prop := r &&& (ideDf ||| ideErr) ≠ 0

/-- Among the accesses is a status that says so. -/
def ReportsError (log : List Access) : Prop :=
  ∃ r, Access.inb (iobase + isaStatus) r ∈ log ∧ Fails r

/-- What `nsecs` sectors come to: all of them are moved, or the disk reports an error, or it stays
busy. -/
structure Moves (nsecs : Nat) (r : Kern Int) (new : List Access) : Prop where
  atMost : moved new ≤ sectsize * nsecs
  whole : r = .ok 0 → moved new = sectsize * nsecs
  returns : ∀ v, r = .ok v → v = 0 ∨ ReportsError new
  halts : ∀ e, r = .error e → e = .noReturn

variable {disk : Disk} {log new : List Access} {move : Nat → Access} {fuel : Nat}

theorem moved_append (l l' : List Access) : moved (l ++ l') = moved l + moved l' := by
  induction l with
  | nil => exact (Nat.zero_add _).symm
  | cons a l ih =>
    rw [List.cons_append, moved, moved, ih, Nat.add_assoc]

theorem ReportsError.append_left (h : ReportsError new) (l : List Access) :
    ReportsError (l ++ new) := by
  obtain ⟨r, hr, hfails⟩ := h
  exact ⟨r, List.mem_append_right l hr, hfails⟩

section Moves

variable {nsecs : Nat} {r : Kern Int}

/-- A wait that the loop does not come back from. -/
theorem Moves.stopped (hzero : moved new = 0) (hr : r ≠ .ok 0)
    (hval : ∀ v, r = .ok v → v = 0 ∨ ReportsError new) (herr : ∀ e, r = .error e → e = .noReturn) :
    Moves nsecs r new := by
  refine ⟨?_, fun h => absurd h hr, hval, herr⟩
  rw [hzero]
  exact Nat.zero_le _

/-- One sector more, moved in front of the others. -/
theorem Moves.sector (h : Moves nsecs r new) {a : Access} (ha : a.bytes = sectsize) :
    Moves (nsecs + 1) r (a :: new) := by
  refine ⟨?_, fun hr => ?_, fun v hv => ?_, h.halts⟩
  · rw [moved, ha, Nat.mul_succ, Nat.add_comm]
    exact Nat.add_le_add_right h.atMost _
  · rw [moved, ha, h.whole hr, Nat.mul_succ, Nat.add_comm]
  · exact (h.returns v hv).imp_right fun h => h.append_left [a]

/-- What has happened before moved nothing. -/
theorem Moves.behind (h : Moves nsecs r new) {l : List Access} (hzero : moved l = 0) :
    Moves nsecs r (l ++ new) := by
  have hmoved : moved (l ++ new) = moved new := by
    rw [moved_append, hzero, Nat.zero_add]
  refine ⟨?_, fun hr => ?_, fun v hv => ?_, h.halts⟩
  · rw [hmoved]
    exact h.atMost
  · rw [hmoved, h.whole hr]
  · exact (h.returns v hv).imp_right fun h => h.append_left l

end Moves

/-- Waiting moves nothing. It ends with the disk at rest, or not at all. -/
theorem ideWaitReady_spec (checkError : Bool) : ∀ (fuel : Nat) (log : List Access),
    ∃ r new, ideWaitReady disk iobase checkError fuel log = (r, log ++ new) ∧ moved new = 0 ∧
      (∀ v, r = .ok v → v = 0 ∨ ReportsError new) ∧ ∀ e, r = .error e → e = .noReturn
  | 0, log => by
    refine ⟨_, [], by rw [List.append_nil]; rfl, rfl, fun v hv => ?_, fun e he => ?_⟩
    · cases hv
    · cases he
      rfl
  | fuel + 1, log => by
    rw [ideWaitReady]
    by_cases hbusy : disk log &&& ideBsy ≠ 0
    · obtain ⟨r, new, heq, hmoved, hval, herr⟩ := ideWaitReady_spec checkError fuel
        (log ++ [.inb (iobase + isaStatus) (disk log)])
      refine ⟨r, .inb (iobase + isaStatus) (disk log) :: new, ?_, ?_, fun v hv => ?_, herr⟩
      · rw [if_pos hbusy, heq, List.append_assoc]
        rfl
      · rw [moved, hmoved]
        rfl
      · exact (hval v hv).imp_right fun h => h.append_left [_]
    · rw [if_neg hbusy]
      by_cases hfails : checkError ∧ disk log &&& (ideDf ||| ideErr) ≠ 0
      · rw [if_pos hfails]
        refine ⟨_, _, rfl, rfl, fun _ _ => .inr ⟨_, List.mem_singleton_self _, hfails.2⟩, ?_⟩
        intro e he
        cases he
      · rw [if_neg hfails]
        refine ⟨_, _, rfl, rfl, fun v hv => .inl ?_, fun e he => ?_⟩
        · cases hv
          rfl
        · cases he

/-- **The loop over the sectors.** -/
theorem moveSecs_moves (hmove : ∀ addr, (move addr).bytes = sectsize) :
    ∀ (nsecs addr : Nat) (log : List Access), ∃ r new,
      moveSecs disk move fuel nsecs addr 0 log = (r, log ++ new) ∧ Moves nsecs r new
  | 0, addr, log => by
    refine ⟨.ok 0, [], by rw [List.append_nil]; rfl, Nat.le_refl _, fun _ => rfl, ?_, ?_⟩
    · intro v hv
      cases hv
      exact .inl rfl
    · intro e he
      cases he
  | nsecs + 1, addr, log => by
    obtain ⟨r, wait, hwait, hzero, hval, herr⟩ :=
      @ideWaitReady_spec disk true fuel log
    rw [moveSecs, hwait]
    cases r with
    | error e => exact ⟨.error e, wait, rfl, .stopped hzero (fun h => by cases h) hval herr⟩
    | ok v =>
      dsimp only
      by_cases hv : v = 0
      · subst hv
        obtain ⟨r, new, hloop, hmoves⟩ := moveSecs_moves hmove nsecs (u32 (addr + sectsize))
          (log ++ wait ++ [move addr])
        refine ⟨r, wait ++ (move addr :: new), ?_, (hmoves.sector (hmove addr)).behind hzero⟩
        rw [if_neg (not_not_intro rfl), hloop]
        simp only [List.append_assoc, List.cons_append, List.nil_append]
      · rw [if_pos hv]
        exact ⟨.ok v, wait, rfl, .stopped hzero (fun h => hv (Except.ok.inj h)) hval herr⟩

theorem moved_command (secno nsecs : Nat) (cmd : Byte) : moved (command secno nsecs cmd) = 0 := rfl

/-- Reading or writing, once the assertions hold. -/
theorem ideSecs_moves (hmove : ∀ addr, (move addr).bytes = sectsize) (info : String) (cmd : Byte)
    (valid fuel secno addr nsecs : Nat) (log : List Access) :
    (∃ msg, ideSecs disk info cmd move valid fuel secno addr nsecs log = (.error (.panic msg), log)) ∨
      nsecs ≤ maxNsecs ∧ ∃ r new,
        ideSecs disk info cmd move valid fuel secno addr nsecs log = (r, log ++ new) ∧
          Moves nsecs r new := by
  unfold ideSecs
  by_cases hnsecs : nsecs ≤ maxNsecs ∧ valid = 1
  · rw [if_neg (not_not_intro hnsecs)]
    by_cases hsecno : secno < maxDiskNsecs ∧ u32 (secno + nsecs) ≤ maxDiskNsecs
    · rw [if_neg (not_not_intro hsecno)]
      refine .inr ⟨hnsecs.1, ?_⟩
      obtain ⟨r, wait, hwait, hzero, hval, herr⟩ :=
        @ideWaitReady_spec disk false fuel log
      rw [hwait]
      cases r with
      | error e => exact ⟨.error e, wait, rfl, .stopped hzero (fun h => by cases h) hval herr⟩
      | ok v =>
        obtain ⟨r, new, hloop, hmoves⟩ := @moveSecs_moves disk move fuel hmove nsecs addr
          (log ++ wait ++ command secno nsecs cmd)
        refine ⟨r, wait ++ (command secno nsecs cmd ++ new), ?_,
          (hmoves.behind (moved_command ..)).behind hzero⟩
        dsimp only
        rw [hloop]
        simp only [List.append_assoc]
    · rw [if_pos hsecno]
      exact .inl ⟨_, rfl⟩
  · rw [if_pos hnsecs]
    exact .inl ⟨_, rfl⟩

/-! ## Requests -/

/-- What a request should come to: refused without touching a port if the buffer is too small, and
otherwise not a byte more than fits, and all of the sectors unless the disk reports an error. -/
structure Exact (valid : Nat) (req : IoRequest) : Prop where
  refuses : req.bsize < sectsize * req.nsecs →
    ∀ disk fuel log, ideRequest disk valid fuel req log = (.ok (-1), log)
  transfers : ∀ disk fuel log, ∃ r new, ideRequest disk valid fuel req log = (r, log ++ new) ∧
    moved new ≤ req.bsize ∧
    (r = .ok 0 → moved new = sectsize * req.nsecs ∧ sectsize * req.nsecs ≤ req.bsize) ∧
    (moved new ≠ 0 → ∀ v, r = .ok v → moved new = sectsize * req.nsecs ∨ ReportsError new)

/-- A request to the disk. -/
def IoRequest.Known (req : IoRequest) : Prop := req.ioType = ioRead ∨ req.ioType = ioWrite

instance (req : IoRequest) : Decidable req.Known := inferInstanceAs (Decidable (_ ∨ _))

/-- The product that is compared with the size of the buffer has wrapped to something that fits. -/
def WrapsToFit (req : IoRequest) : Prop :=
  req.bsize < sectsize * req.nsecs ∧ u32 (sectsize * req.nsecs) ≤ req.bsize

instance (req : IoRequest) : Decidable (WrapsToFit req) := inferInstanceAs (Decidable (_ ∧ _))

variable {req : IoRequest} {valid : Nat}

/-- The three things a request can come to. -/
theorem ideRequest_cases (hknown : req.Known) (disk : Disk) (valid fuel : Nat) (log : List Access) :
    req.bsize < u32 (sectsize * req.nsecs) ∧ ideRequest disk valid fuel req log = (.ok (-1), log) ∨
      u32 (sectsize * req.nsecs) ≤ req.bsize ∧
        ((∃ msg, ideRequest disk valid fuel req log = (.error (.panic msg), log)) ∨
          req.nsecs ≤ maxNsecs ∧ ∃ r new,
            ideRequest disk valid fuel req log = (r, log ++ new) ∧ Moves req.nsecs r new) := by
  have hwrite : ioWrite ≠ ioRead := by decide
  unfold ideRequest
  by_cases hsmall : req.bsize < u32 (sectsize * req.nsecs)
  · refine .inl ⟨hsmall, ?_⟩
    rcases hknown with h | h
    · rw [if_pos h, if_pos hsmall]
    · rw [h, if_neg hwrite, if_pos rfl, if_pos hsmall]
  · refine .inr ⟨Nat.le_of_not_lt hsmall, ?_⟩
    rcases hknown with h | h
    · rw [if_pos h, if_neg hsmall]
      exact ideSecs_moves (fun _ => rfl) ..
    · rw [h, if_neg hwrite, if_pos rfl, if_neg hsmall]
      exact ideSecs_moves (fun _ => rfl) ..

/-- Sectors the assertions let pass do not make the product wrap. -/
theorem u32_sectors (h : req.nsecs ≤ maxNsecs) :
    u32 (sectsize * req.nsecs) = sectsize * req.nsecs := by
  refine u32_of_lt ?_
  simp only [sectsize, maxNsecs] at *
  omega

/-- **Which requests come to what they should.** -/
theorem exact_iff (hknown : req.Known) (valid : Nat) : Exact valid req ↔ ¬ WrapsToFit req := by
  constructor
  · rintro h ⟨hsmall, hfits⟩
    have hrefused := h.refuses hsmall (fun _ => 0) 0 []
    rcases ideRequest_cases hknown (fun _ => 0) valid 0 [] with ⟨hlt, -⟩ | ⟨-, ⟨msg, hpanic⟩ | hpass⟩
    · exact absurd hlt (Nat.not_lt.2 hfits)
    · rw [hpanic] at hrefused
      cases hrefused
    · rw [u32_sectors hpass.1] at hfits
      exact absurd hsmall (Nat.not_lt.2 hfits)
  · intro hwrap
    constructor
    · intro hsmall disk fuel log
      rcases ideRequest_cases hknown disk valid fuel log with ⟨-, heq⟩ | ⟨hfits, -⟩
      · exact heq
      · exact absurd ⟨hsmall, hfits⟩ hwrap
    · intro disk fuel log
      rcases ideRequest_cases hknown disk valid fuel log with
        ⟨-, heq⟩ | ⟨hfits, ⟨msg, hpanic⟩ | ⟨hnsecs, r, new, heq, hmoves⟩⟩
      · refine ⟨_, [], by rw [heq, List.append_nil], Nat.zero_le _, fun h => ?_, fun h => ?_⟩
        · cases h
        · exact absurd rfl h
      · refine ⟨_, [], by rw [hpanic, List.append_nil], Nat.zero_le _, fun h => ?_, fun h => ?_⟩
        · cases h
        · exact absurd rfl h
      · rw [u32_sectors hnsecs] at hfits
        refine ⟨r, new, heq, hmoves.atMost.trans hfits, fun hr => ⟨hmoves.whole hr, hfits⟩, ?_⟩
        intro _ v hv
        refine (hmoves.returns v hv).imp_left fun hzero => ?_
        subst hzero
        exact hmoves.whole hv

/-- The request for the first sector of the disk. -/
theorem exact_iff_mbr : Exact 1 ⟨ioRead, 0, 1, 0xC0110000, 512⟩ ↔
    ¬ WrapsToFit ⟨ioRead, 0, 1, 0xC0110000, 512⟩ :=
  exact_iff (by decide) 1

/-- 2^23 sectors fit into no buffer at all, as far as the product goes. -/
theorem not_exact : ¬ ∀ (valid : Nat) (req : IoRequest), req.Known → req.secno < 2 ^ 32 →
    req.nsecs < 2 ^ 32 → req.bsize < 2 ^ 32 → Exact valid req := by
  intro h
  have hrefused := (h 1 ⟨ioRead, 0, 0x800000, 0xC0110000, 0⟩ (by decide) (by decide) (by decide)
    (by decide)).refuses (by decide) (fun _ => 0) 0 []
  have hresult := congrArg Prod.fst hrefused
  revert hresult
  decide

end Hurlex.Ide
