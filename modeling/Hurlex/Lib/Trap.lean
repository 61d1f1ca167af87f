import Hurlex.Lib.Machine

/-!
# Segment registers and the return from an interrupt

The instructions an interrupt handler leaves with, and what protects segment registers from them:
`none` is a general protection fault. The descriptor tables come in as `Segments`.

Of `eflags` only the interrupt flag is kept, which the moves, pops and additions here do not touch.
Out of scope: bases and limits, conforming code, and segments that may not be read or written.
-/

namespace Hurlex.Lib.Machine

abbrev Half := BitVec 16

inductive Seg where
  | cs | ds | es | fs | gs | ss
  deriving DecidableEq, Repr

@[ext] structure Cpu extends State where
  seg : Seg → Half
  /-- `IF` -/
  intr : Bool

/-- `mov r, v` for a segment register. -/
def Cpu.setSeg (c : Cpu) (r : Seg) (v : Half) : Cpu :=
  { c with seg := fun q => if q = r then v else c.seg q }

@[simp] theorem Cpu.setSeg_toState (c : Cpu) (r : Seg) (v : Half) :
    (c.setSeg r v).toState = c.toState := rfl

@[simp] theorem Cpu.setSeg_intr (c : Cpu) (r : Seg) (v : Half) : (c.setSeg r v).intr = c.intr := rfl

@[simp] theorem Cpu.setSeg_seg (c : Cpu) (r q : Seg) (v : Half) :
    (c.setSeg r v).seg q = if q = r then v else c.seg q := rfl

/-! ## Protection -/

/-- The privilege level of a selector. -/
def rpl (v : Half) : Nat := v.toNat % 4

def isNull (v : Half) : Bool := v.toNat < 4

/-- A segment: its privilege level, and whether it is for code that may be read, or for data that may
be written. -/
structure Segment where
  dpl : Nat
  code : Bool
  deriving DecidableEq, Repr

/-- What the descriptor tables have for a selector. -/
abbrev Segments := Half → Option Segment

namespace Segments

variable (t : Segments) (cpl : Nat)

/-- A selector that can be loaded at the level `cpl`. For `ss` its level, that of its segment and
`cpl` have to be the same. No load goes to `cs`. -/
def loads (r : Seg) (v : Half) : Bool :=
  match r with
  | .cs => false
  | .ss => !isNull v && (t v).any fun d => !d.code && d.dpl == cpl && rpl v == cpl
  | .ds | .es | .fs | .gs => isNull v || (t v).any fun d => decide (max cpl (rpl v) ≤ d.dpl)

/-- The selectors with which `iret` can go on from the level `cpl`. -/
def returns (cs ss : Half) : Bool :=
  !isNull cs && (t cs).any (fun d => d.code && d.dpl == rpl cs && decide (cpl ≤ rpl cs)) &&
    (rpl cs == cpl || t.loads (rpl cs) .ss ss)

/-- What `iret` to the level `cpl` leaves in a register for data: nothing of an inner level. -/
def keep (v : Half) : Half := if (t v).any (fun d => decide (d.dpl < cpl)) then 0 else v

end Segments

/-! ## Instructions -/

inductive TrapInstr where
  | plain (i : Instr)
  /-- `mov dst, src`, from the low half of `src` -/
  | movSeg (dst : Seg) (src : Reg)
  /-- `edi`, `esi`, `ebp`, a word that is skipped, `ebx`, `edx`, `ecx`, `eax` -/
  | popa
  | add (dst : Reg) (n : Word)
  /-- `esp` and `ss` are on the stack only if the level changes -/
  | iret
  deriving DecidableEq, Repr

/-- The registers `popa` loads, in the order in which they are popped. -/
def popaRegs : List (Option Reg) :=
  [some .edi, some .esi, some .ebp, none, some .ebx, some .edx, some .ecx, some .eax]

/-- One word popped into a register, or dropped. -/
def popInto (s : State) : Option Reg → State
  | some r => exec s (.pop r)
  | none => s.set .esp (s.gpr .esp + 4)

section Exec

variable (t : Segments) (c : Cpu)

/-- The selector `n` bytes into the stack. -/
def stackSeg (n : Word) : Half := (read32 c.mem (c.gpr .esp + n)).setWidth 16

def iret : Option Cpu :=
  let cpl := rpl (c.seg .cs)
  let cs := stackSeg c 4
  let intr := (read32 c.mem (c.gpr .esp + 8)).getLsbD 9
  let eip := read32 c.mem (c.gpr .esp)
  if t.returns cpl cs (stackSeg c 16) then
    if cpl < rpl cs then
      let esp := read32 c.mem (c.gpr .esp + 12)
      some
        { toState := { c.toState.set .esp esp with eip }
          seg := fun q =>
            if q = .cs then cs
            else if q = .ss then stackSeg c 16
            else t.keep (rpl cs) (c.seg q)
          intr }
    else
      some
        { c.setSeg .cs cs with
          toState := { c.toState.set .esp (c.gpr .esp + 12) with eip }
          intr }
  else none

def execTrap : TrapInstr → Option Cpu
  | .plain i => some { c with toState := exec c.toState i }
  | .movSeg dst src =>
    let v := (c.gpr src).setWidth 16
    if t.loads (rpl (c.seg .cs)) dst v then some (c.setSeg dst v) else none
  | .popa => some { c with toState := popaRegs.foldl popInto c.toState }
  | .add dst n => some { c with toState := c.toState.set dst (c.gpr dst + n) }
  | .iret => iret t c

def runTrap (p : List TrapInstr) : Option Cpu := p.foldlM (execTrap t) c

end Exec

variable {t : Segments} {c : Cpu} {p q : List TrapInstr}

theorem runTrap_cons (i : TrapInstr) : runTrap t c (i :: p) = (execTrap t c i).bind (runTrap t · p) :=
  List.foldlM_cons

theorem runTrap_last (i : TrapInstr) : runTrap t c [i] = execTrap t c i := by
  rw [runTrap_cons]
  cases execTrap t c i <;> rfl

theorem runTrap_append : runTrap t c (p ++ q) = (runTrap t c p).bind (runTrap t · q) :=
  List.foldlM_append

theorem runTrap_movSeg {dst : Seg} {src : Reg} : runTrap t c (.movSeg dst src :: p) =
    if t.loads (rpl (c.seg .cs)) dst ((c.gpr src).setWidth 16) then
      runTrap t (c.setSeg dst ((c.gpr src).setWidth 16)) p
    else none := by
  rw [runTrap_cons, execTrap]
  split
  · rfl
  · rfl

/-! ### One selector in all registers for data -/

/-- `ds`, `es`, `fs`, `gs` and `ss` from one register. -/
def loadData (src : Reg) : List TrapInstr :=
  [.movSeg .ds src, .movSeg .es src, .movSeg .fs src, .movSeg .gs src, .movSeg .ss src]

/-- The selector has to be one for a stack at the level of the program. -/
theorem runTrap_loadData (t : Segments) (c : Cpu) (src : Reg) {v : Half}
    (hv : (c.gpr src).setWidth 16 = v) : runTrap t c (loadData src) =
      if t.loads (rpl (c.seg .cs)) .ds v ∧ t.loads (rpl (c.seg .cs)) .ss v then
        some { c with seg := fun q => if q = .cs then c.seg .cs else v }
      else none := by
  subst hv
  -- `es`, `fs` and `gs` take what `ds` takes
  have hes (u : Half) : t.loads (rpl (c.seg .cs)) .es u = t.loads (rpl (c.seg .cs)) .ds u := rfl
  have hfs (u : Half) : t.loads (rpl (c.seg .cs)) .fs u = t.loads (rpl (c.seg .cs)) .ds u := rfl
  have hgs (u : Half) : t.loads (rpl (c.seg .cs)) .gs u = t.loads (rpl (c.seg .cs)) .ds u := rfl
  unfold loadData
  simp only [runTrap_movSeg, Cpu.setSeg_seg, Cpu.setSeg_toState, reduceCtorEq, if_false, hes, hfs,
    hgs]
  by_cases hds : t.loads (rpl (c.seg .cs)) .ds ((c.gpr src).setWidth 16) = true
  · by_cases hss : t.loads (rpl (c.seg .cs)) .ss ((c.gpr src).setWidth 16) = true
    · simp only [hds, hss, if_true, and_self]
      refine congrArg some (Cpu.ext rfl rfl rfl (funext fun q => ?_) rfl)
      cases q <;> rfl
    · simp [hds, hss]
  · simp [hds]

end Hurlex.Lib.Machine
