import Hurlex.Kernel.IntrFrame
import Mathlib.Data.Fin.VecNotation
import Mathlib.Tactic.IntervalCases

/-!
# System calls (`arch/i386/syscall/syscall.c`)

The functions behind vector 128 (lines 26 to 119), the part of `fs/vfs.c` they call (lines 240 to 274),
and `syscall_handler`. Arguments come in registers and the result goes back in `eax`, through the
`pt_regs_t` of the interrupt.

* **`syscall_returns`**: from `int 0x80` to the next instruction, for the kernel itself. A program in
  user mode never gets there: the common stub loads its `ds` into `ss`.
-/

namespace Hurlex.Intr

open Lib.Machine Hurlex.Task

/-! ## The functions -/

def vfsOpen (filename openflag : Word) : Word := if filename = 0 ∨ openflag = 0 then 0 else 0

def vfsClose (fd : Word) : Word := fd

def vfsRead (fd buff size : Word) : Word := if buff = 0 ∨ size = 0 then 0 else fd

def vfsWrite (fd buff size : Word) : Word := if buff = 0 ∨ size = 0 then 0 else fd

/-- `args`, for a function that returns an `int` and may print. -/
abbrev Syscall := (Fin 5 → Word) → Word × List String

def sysTest : Syscall := fun args => (args 0, ["\n\tsys_test run here!\n"])

def sysExit : Syscall := fun args => (args 0, [])

def sysFork : Syscall := fun args => (args 0, [])

def sysRead : Syscall := fun args => (vfsRead (args 0) (args 1) (args 2), [])

def sysWrite : Syscall := fun args => (vfsWrite (args 0) (args 1) (args 2), [])

def sysOpen : Syscall := fun args => (vfsOpen (args 0) (args 1), [])

def sysClose : Syscall := fun args => (vfsClose (args 0), [])

def sysGetpid : Syscall := fun args => (args 0, [])

/-- `syscalls`, by the numbers `SYS_test` to `SYS_getpid`. -/
def syscalls : List Syscall :=
  [sysTest, sysExit, sysFork, sysRead, sysWrite, sysOpen, sysClose, sysGetpid]

/-- `SYSCALL_MAX` -/
def syscallMax : Int := 7

/-- `syscall_handler`, and what is printed. -/
def syscallHandler (regs : PtRegs) : PtRegs × List String :=
  let sysno := regs.eax.toInt
  if 0 ≤ sysno ∧ sysno ≤ syscallMax then
    match syscalls[sysno.toNat]? with
    | some call =>
      let args : Fin 5 → Word := ![regs.ebx, regs.ecx, regs.edx, regs.esi, regs.edi]
      ({ regs with eax := (call args).1 }, (call args).2)
    | none => (regs, [])
  else (regs, [])

/-! ## What a program gets -/

/-- The frame after the actions of a handler; `call` is what the registered functions do with it. -/
def perform (call : Word → PtRegs → PtRegs) (as : List Action) (r : PtRegs) : PtRegs :=
  as.foldl (fun r a => match a with
    | .call h => call h r
    | _ => r) r

/-- The result of a system call, by its number. -/
def sysResult (eax ebx ecx edx : Word) : Word :=
  match eax.toInt with
  | 0 | 1 | 2 | 6 | 7 => ebx
  | 3 | 4 => if ecx = 0 ∨ edx = 0 then 0 else ebx
  | 5 => 0
  | _ => eax

/-- The program after a system call with the result `eax`. -/
def returnedTo (c : Cpu) (m : Memory) (eax : Word) : Cpu :=
  { c with
    gpr := fun q => if q = .eax then eax else c.gpr q
    mem := m
    seg := fun q => if q = .cs then kernelCs else kernelDs }

/-- `syscall_handler` writes `eax` and nothing else. -/
theorem syscallHandler_frame (r : PtRegs) :
    (syscallHandler r).1 = { r with eax := sysResult r.eax r.ebx r.ecx r.edx } := by
  unfold syscallHandler syscallMax sysResult
  generalize hn : r.eax.toInt = n
  by_cases h : 0 ≤ n ∧ n ≤ 7
  · obtain ⟨h0, h7⟩ := h
    interval_cases n
    all_goals try rfl
    show { r with eax := vfsOpen r.ebx r.ecx } = { r with eax := 0 }
    rw [vfsOpen, ite_self]
  · refine (congrArg Prod.fst (if_neg h)).trans ?_
    split <;> first | omega | rfl

section Call

variable {i : Image} {table eflags h : Word} {tss : InnerStack} {soft : Bool} {c c₁ c₂ : Cpu}
  {t : Handlers} {call : Word → PtRegs → PtRegs}

/-- `isr_handler` hands the frame of vector 128 to `syscall_handler`. -/
theorem perform_syscall (h0 : h ≠ 0) (ht : t 128 = h)
    (hcall : ∀ r, call h r = (syscallHandler r).1) {r : PtRegs} (hr : r.intNo = 128) :
    perform call (handle t 128 r) r =
      { r with eax := sysResult r.eax r.ebx r.ecx r.edx } := by
  have hno : r.intNo.toNat = 128 := congrArg BitVec.toNat hr
  have hactions : handle t 128 r = [.call h] := by
    show isrHandler t r = _
    unfold isrHandler
    rw [hno, ht, if_pos h0]
  rw [hactions, ← syscallHandler_frame]
  exact hcall r

/-- **A system call**, from `int 0x80` through the kernel to the next instruction: where the kernel
calls itself, the result for the number in `eax` comes back in `eax`, an unknown number comes back
unchanged, and besides memory only `es`, `fs`, `gs` and `ss` may have changed, to the kernel's selector.
A program with another `ds`, as every program in user mode, gets a fault on the way back. -/
theorem syscall_returns (h0 : h ≠ 0) (ht : t 128 = h)
    (hcall : ∀ r, call h r = (syscallHandler r).1) (hintr : eflags.getLsbD 9 = c.intr)
    (he : enter i (idtInit i.isr i.irq table emptyIdt).2 tss 128 soft eflags none c = some c₁)
    (hr : Returns c₁ c₂ (perform call (handle t 128 (ptRegsAt c₁.mem (c₁.gpr .esp + 8)))
      (ptRegsAt c₁.mem (c₁.gpr .esp + 8)))) :
    (c.seg .cs = kernelCs → c.seg .ds = kernelDs →
      runTrap Gdt.kernelSegments c₂ commonReturn = some (returnedTo c c₂.mem
        (sysResult (c.gpr .eax) (c.gpr .ebx) (c.gpr .ecx) (c.gpr .edx)))) ∧
    (c.seg .ds ≠ kernelDs → runTrap Gdt.kernelSegments c₂ commonReturn = none) := by
  have hcode : (none : Option Word).isSome = (pushesCode 128 && !soft) := rfl
  have hin := (interrupt_enters i table tss soft eflags c hcode).2 c₁ he
  rw [show (soft && pushesCode 128) = false from Bool.and_false _, if_neg (by decide)] at hin
  have hs := hin.saved
  set r := ptRegsAt c₁.mem (c₁.gpr .esp + 8)
  rw [perform_syscall h0 ht hcall hs.intNo] at hr
  refine ⟨fun hcs hds => ?_, fun hds => interrupt_faults hin hr (hs.ds ▸ hds)⟩
  rw [interrupt_resumes hin hr hcs (hs.cs.trans hcs) (hs.ds.trans hds), ← hs.eax, ← hs.ebx,
    ← hs.ecx, ← hs.edx]
  refine congrArg some (Cpu.ext (funext fun q => ?_) hs.eip rfl (funext fun q => ?_) ?_)
  · cases q with
    | eax => rfl
    | ecx => exact hs.ecx
    | edx => exact hs.edx
    | ebx => exact hs.ebx
    | esp => rfl
    | ebp => exact hs.ebp
    | esi => exact hs.esi
    | edi => exact hs.edi
  · show (if q = .cs then r.cs else r.ds) = if q = .cs then kernelCs else kernelDs
    rw [hs.cs, hs.ds, hcs, hds]
  · show r.eflags.getLsbD 9 = c.intr
    rw [hs.eflags, hintr]

end Call

theorem ptRegsAt_eax (m : Memory) (a v : Word) :
    ptRegsAt (write32 m (a + 32) v) a = { ptRegsAt m a with eax := v } := by
  simp (disch := exact bytesFrom_add_disjoint _ (by decide) (by decide)) only
    [ptRegsAt, read32_write32, read32_write32_of_disjoint]

/-- Nothing but `syscall_handler` is registered. -/
def onlySyscalls (_ : Word) (r : PtRegs) : PtRegs := (syscallHandler r).1

/-- After `read(5, 0x7000, 64)`. -/
def afterRead (c : Cpu) : Cpu :=
  { Cpu.justReturn c with mem := write32 c.mem (c.gpr .esp + 8 + 32) 5 }

/-- `interrupt_handlers` with `syscall_handler` at `0x500`. -/
def readHandlers : Handlers := registerInterruptHandler (fun _ => 0) 128 0x500

theorem returns_afterRead {c c₁ : Cpu} (hin : Entered smallImage 128 0x202 none kernelStack c c₁)
    (hc : c.gpr = readProgram.gpr) : Returns c₁ (afterRead c₁) (perform onlySyscalls
      (handle readHandlers 128 (ptRegsAt c₁.mem (c₁.gpr .esp + 8)))
      (ptRegsAt c₁.mem (c₁.gpr .esp + 8))) := by
  refine ⟨rfl, rfl, ?_⟩
  have hs := hin.saved
  have hfive : sysResult (ptRegsAt c₁.mem (c₁.gpr .esp + 8)).eax
      (ptRegsAt c₁.mem (c₁.gpr .esp + 8)).ebx (ptRegsAt c₁.mem (c₁.gpr .esp + 8)).ecx
      (ptRegsAt c₁.mem (c₁.gpr .esp + 8)).edx = 5 := by
    rw [hs.eax, hs.ebx, hs.ecx, hs.edx, hc]
    rfl
  rw [perform_syscall (by decide) rfl (fun _ => rfl) hs.intNo, hfive]
  exact ptRegsAt_eax _ _ _

/-- The kernel reads for itself, and a program for nobody. -/
theorem syscall_returns_read :
    (∃ c₁ c₂ : Cpu, enter smallImage (idtInit smallImage.isr smallImage.irq 0 emptyIdt).2 kernelStack
        128 true 0x202 none idleProgram = some c₁ ∧
      runTrap Gdt.kernelSegments c₂ commonReturn = some (returnedTo idleProgram c₂.mem 5)) ∧
    ∃ c₁ c₂ : Cpu, enter smallImage (idtInit smallImage.isr smallImage.irq 0 emptyIdt).2 kernelStack
        128 true 0x202 none readProgram = some c₁ ∧
      runTrap Gdt.kernelSegments c₂ commonReturn = none := by
  have hcode : (none : Option Word).isSome = pushesCode 128 := rfl
  have hfive : sysResult (idleProgram.gpr .eax) (idleProgram.gpr .ebx) (idleProgram.gpr .ecx)
      (idleProgram.gpr .edx) = 5 := rfl
  have hcall (r : PtRegs) : onlySyscalls 0x500 r = (syscallHandler r).1 := rfl
  constructor
  · have hv : Allowed 128 true idleProgram := ⟨.inr rfl, fun _ _ => rfl⟩
    obtain ⟨c₁, h, hin⟩ := enter_of_allowed smallImage 0 kernelStack 0x202 hv hcode
    have hres := (syscall_returns (by decide) rfl hcall rfl h (returns_afterRead hin rfl)).1 rfl rfl
    rw [hfive] at hres
    exact ⟨c₁, afterRead c₁, h, hres⟩
  · have hv : Allowed 128 true readProgram := ⟨.inr rfl, fun _ _ => rfl⟩
    obtain ⟨c₁, h, hin⟩ := enter_of_allowed smallImage 0 kernelStack 0x202 hv hcode
    exact ⟨c₁, afterRead c₁, h, (syscall_returns (by decide) rfl hcall rfl h
      (returns_afterRead hin rfl)).2 (by decide)⟩

end Hurlex.Intr
