import Hurlex.Task.Interleave
import Hurlex.Task.SwitchTo
import Hurlex.Mm.Gdt

/-!
# Starting a kernel thread

The way of a new task to its function: `kernel_thread`, `copy_thread` and what `do_fork` does around
them (`arch/i386/task/task.c`), then the first `switch_to` to its context, `forkret_s`
(`arch/i386/intr/intr_s.s`) and `kthread_entry`.

A `task_struct` is split between two views. The fields the scheduler works with are in the `Kernel`;
`stack`, `pt_regs` and `context` are in memory, where `switch_to` finds them.
-/

namespace Hurlex.Task

open Lib.Machine

/-! ## The saved registers -/

/-- `pt_regs_t`. -/
structure PtRegs where
  ds : Half
  padding1 : Half
  edi : Word
  esi : Word
  ebp : Word
  oesp : Word
  ebx : Word
  edx : Word
  ecx : Word
  eax : Word
  intNo : Word
  errCode : Word
  eip : Word
  cs : Half
  padding2 : Half
  eflags : Word
  esp : Word
  ss : Half
  padding3 : Half
  deriving DecidableEq

/-- After `bzero`. -/
def PtRegs.zero : PtRegs where
  ds := 0
  padding1 := 0
  edi := 0
  esi := 0
  ebp := 0
  oesp := 0
  ebx := 0
  edx := 0
  ecx := 0
  eax := 0
  intNo := 0
  errCode := 0
  eip := 0
  cs := 0
  padding2 := 0
  eflags := 0
  esp := 0
  ss := 0
  padding3 := 0

/-- `sizeof(pt_regs_t)`. -/
def ptRegsSize : Word := 64

/-- `r` stored at `a`. -/
def putPtRegs (m : Memory) (a : Word) (r : PtRegs) : Memory :=
  let m := write32 m (a + 0) (r.padding1 ++ r.ds)
  let m := write32 m (a + 4) r.edi
  let m := write32 m (a + 8) r.esi
  let m := write32 m (a + 12) r.ebp
  let m := write32 m (a + 16) r.oesp
  let m := write32 m (a + 20) r.ebx
  let m := write32 m (a + 24) r.edx
  let m := write32 m (a + 28) r.ecx
  let m := write32 m (a + 32) r.eax
  let m := write32 m (a + 36) r.intNo
  let m := write32 m (a + 40) r.errCode
  let m := write32 m (a + 44) r.eip
  let m := write32 m (a + 48) (r.padding2 ++ r.cs)
  let m := write32 m (a + 52) r.eflags
  let m := write32 m (a + 56) r.esp
  write32 m (a + 60) (r.padding3 ++ r.ss)

def lowHalf (w : Word) : Half := w.setWidth 16

def highHalf (w : Word) : Half := w.extractLsb' 16 16

/-- The `pt_regs_t` at `a`. -/
def ptRegsAt (m : Memory) (a : Word) : PtRegs where
  ds := lowHalf (read32 m (a + 0))
  padding1 := highHalf (read32 m (a + 0))
  edi := read32 m (a + 4)
  esi := read32 m (a + 8)
  ebp := read32 m (a + 12)
  oesp := read32 m (a + 16)
  ebx := read32 m (a + 20)
  edx := read32 m (a + 24)
  ecx := read32 m (a + 28)
  eax := read32 m (a + 32)
  intNo := read32 m (a + 36)
  errCode := read32 m (a + 40)
  eip := read32 m (a + 44)
  cs := lowHalf (read32 m (a + 48))
  padding2 := highHalf (read32 m (a + 48))
  eflags := read32 m (a + 52)
  esp := read32 m (a + 56)
  ss := lowHalf (read32 m (a + 60))
  padding3 := highHalf (read32 m (a + 60))

/-! ## Making the task -/

/-- `KERNEL_CS`. -/
def kernelCs : Half := 1 <<< 3

/-- `KERNEL_DS`. -/
def kernelDs : Half := 2 <<< 3

/-- `FL_IF`. -/
def flIf : Word := 0x200

/-- `CLONE_VM`. -/
def cloneVm : Word := 0x100

/-- `STACK_SIZE`. -/
def stackSize : Word := 0x1000

/-- `sizeof(struct task_struct)`. -/
def taskStructSize : Nat := 368

/-- `&task->stack`, `&task->pt_regs` and `&task->context`. -/
def stackField (task : Word) : Word := task + 4

def ptRegsField (task : Word) : Word := task + 52

def contextField (task : Word) : Word := task + 56

/-- `bzero`. -/
def bzero (m : Memory) (dest : Word) (len : Nat) : Memory := fun x =>
  if (x - dest).toNat < len then 0 else m x

/-- `task_to_stack`. -/
def taskToStack (task : Word) : Word := task + stackSize - 8

/-- `alloc_task_struct`, on the memory of the page it got. -/
def allocTaskStruct (m : Memory) (task : Word) : Memory :=
  write32 (bzero m task taskStructSize) (stackField task) (taskToStack task)

/-- `E_NO_MEM` and `E_NO_FREE_PROC`. -/
def eNoMem : Int := 4

def eNoFreeProc : Int := 5

def copyMm (cloneFlags task : Word) : Int := if cloneFlags = 0 ∧ task = 0 then -1 else 0

section Symbols

/- Where the linker puts `forkret_s` and `kthread_entry`. -/
variable (forkretAddr kthreadEntry : Word)

def copyThread (m : Memory) (task : Word) (r : PtRegs) : Memory :=
  let stack := read32 m (stackField task)
  let p := stack - ptRegsSize
  let m := write32 m (ptRegsField task) p
  let m := putPtRegs m p r
  let m := write32 m (p + 32) 0
  let m := write32 m (p + 56) stack
  let m := write32 m (p + 52) (read32 m (p + 52) ||| flIf)
  let m := write32 m (contextField task + 0) forkretAddr
  write32 m (contextField task + 4) p

/-- `do_fork`, where `alloc_pages` returned `addr`: the number of the child or an error. -/
def doFork (k : Kernel) (m : Memory) (addr cloneFlags : Word) (r : PtRegs) :
    Kern (Int × Kernel × Memory) :=
  if maxTask ≤ k.nrTask then .ok (-eNoFreeProc, k, m)
  else do
    kassert (addr ≠ 0) "alloc_task_struct error!"
    let task := addr + BitVec.ofNat 32 kernbase
    let k := k.allocTaskStruct task.toNat
    let m := allocTaskStruct m task
    if task = 0 then .ok (-eNoMem, k, m)
    else if copyMm cloneFlags task ≠ 0 then .ok (-eNoMem, k, m)
    else
      let m := copyThread forkretAddr m task r
      let k := (k.forkCommit task.toNat).wakeupTask task.toNat
      .ok ((k.task task.toNat).pid, k, m)

/-- What `kernel_thread` puts into the `pt_regs` of its child. -/
def kthreadRegs (func args : Word) : PtRegs :=
  { PtRegs.zero with
    cs := kernelCs
    ds := kernelDs
    ss := kernelDs
    ebx := func
    edx := args
    eip := kthreadEntry }

def kernelThread (k : Kernel) (m : Memory) (addr func args cloneFlags : Word) :
    Kern (Int × Kernel × Memory) :=
  doFork forkretAddr k m addr (cloneFlags ||| cloneVm) (kthreadRegs kthreadEntry func args)

end Symbols

/-! ## Running it for the first time -/

/-- `forkret_s`. -/
def forkretS : List TrapInstr :=
  [.plain (.pop .ebx),
   .movSeg .ds .ebx,
   .movSeg .es .ebx,
   .movSeg .fs .ebx,
   .movSeg .gs .ebx,
   .movSeg .ss .ebx,
   .popa,
   .add .esp 8,
   .iret]

/-- `switch_to` on the whole processor: it touches no segment register and no flag. -/
def cpuSwitchTo (c : Cpu) : Cpu := { c with toState := switchTo c.toState }

/-! ## The frame in memory -/

variable {m m' : Memory} {a x task : Word} {r : PtRegs}

theorem lowHalf_append (h l : Half) : lowHalf (h ++ l) = l := by
  unfold lowHalf
  rw [BitVec.setWidth_append]
  simp

theorem highHalf_append (h l : Half) : highHalf (h ++ l) = h := by
  unfold highHalf
  refine BitVec.eq_of_getLsbD_eq fun i hi => ?_
  rw [BitVec.getLsbD_extractLsb', BitVec.getLsbD_append]
  simp [hi]

/-- The fields `copy_thread` changes after it has copied the frame. -/
theorem ptRegsAt_patched (m : Memory) (a : Word) (r : PtRegs) (eax esp flags : Word) :
    ptRegsAt
      (let m := putPtRegs m a r
       let m := write32 m (a + 32) eax
       let m := write32 m (a + 56) esp
       write32 m (a + 52) (read32 m (a + 52) ||| flags)) a =
      { r with eax, esp, eflags := r.eflags ||| flags } := by
  simp (disch := exact bytesFrom_add_disjoint _ (by decide) (by decide)) only
    [ptRegsAt, putPtRegs, read32_write32, read32_write32_of_disjoint, lowHalf_append,
      highHalf_append]

/-- A frame is read off its own 64 bytes. -/
theorem ptRegsAt_congr (h : ∀ x ∈ bytesFrom a 64, m x = m' x) : ptRegsAt m a = ptRegsAt m' a := by
  have field {k : Nat} (hk : k + 4 ≤ 64) :
      read32 m (a + BitVec.ofNat 32 k) = read32 m' (a + BitVec.ofNat 32 k) :=
    read32_congr fun x hx => h x (bytesFrom_subset a hk (by decide) hx)
  have h0 := field (k := 0) (by decide)
  have h48 := field (k := 48) (by decide)
  have h60 := field (k := 60) (by decide)
  simp only [ptRegsAt, PtRegs.mk.injEq]
  exact ⟨congrArg lowHalf h0, congrArg highHalf h0, field (k := 4) (by decide),
    field (k := 8) (by decide), field (k := 12) (by decide), field (k := 16) (by decide),
    field (k := 20) (by decide), field (k := 24) (by decide), field (k := 28) (by decide),
    field (k := 32) (by decide), field (k := 36) (by decide), field (k := 40) (by decide),
    field (k := 44) (by decide), congrArg lowHalf h48, congrArg highHalf h48,
    field (k := 52) (by decide), field (k := 56) (by decide), congrArg lowHalf h60,
    congrArg highHalf h60⟩

/-! ## `forkret_s` -/

/-- What `forkret_s` leaves from the frame `r` at `p`, as long as the privilege level stays: the
fields `esp` and `ss` are not popped. -/
def returned (m : Memory) (p : Word) (r : PtRegs) : Cpu where
  gpr
    | .eax => r.eax
    | .ecx => r.ecx
    | .edx => r.edx
    | .ebx => r.ebx
    | .esp => p + 56
    | .ebp => r.ebp
    | .esi => r.esi
    | .edi => r.edi
  eip := r.eip
  mem := m
  seg q := if q = .cs then r.cs else r.ds
  intr := r.eflags.getLsbD 9

/-- Up to its `iret`, `forkret_s` pops everything below `eip`. -/
def unwound (c : Cpu) (r : PtRegs) : Cpu :=
  { returned c.mem (c.gpr .esp - 12) r with
    eip := c.eip
    seg := fun q => if q = .cs then c.seg .cs else r.ds
    intr := c.intr }

theorem forkretS_eq : forkretS =
    .plain (.pop .ebx) :: (loadData .ebx ++ [.popa, .add .esp 8, .iret]) := rfl

/-- It gets there if the frame's `ds` can be loaded into all of them, `ss` included. -/
theorem runTrap_unwind {t : Segments} {c : Cpu} (hr : ptRegsAt c.mem (c.gpr .esp) = r) :
    runTrap t c forkretS =
      if t.loads (rpl (c.seg .cs)) .ds r.ds ∧ t.loads (rpl (c.seg .cs)) .ss r.ds then
        iret t (unwound c r)
      else none := by
  subst hr
  set k : Cpu := { c with toState := exec c.toState (.pop .ebx) } with hk
  have hv : (k.gpr .ebx).setWidth 16 = (ptRegsAt c.mem (c.gpr .esp)).ds := by
    simp [hk, exec, ptRegsAt, lowHalf]
  rw [forkretS_eq, runTrap_cons, show execTrap t c (.plain (.pop .ebx)) = some k from rfl,
    Option.bind_some, runTrap_append, runTrap_loadData t k .ebx hv]
  split
  · rw [Option.bind_some, runTrap_cons, execTrap, Option.bind_some, runTrap_cons, execTrap,
      Option.bind_some, runTrap_last, execTrap]
    refine congrArg (iret t) (Cpu.ext (funext fun q => ?_) rfl rfl rfl rfl)
    simp only [hk, exec, popaRegs, popInto, State.set_gpr, State.set_mem, List.foldl_cons,
      List.foldl_nil]
    cases q <;> simp [unwound, returned, ptRegsAt, BitVec.add_assoc, BitVec.sub_eq_add_neg]
  · rfl

/-- The selectors `iret` finds behind the frame. -/
theorem stackSeg_unwound {c : Cpu} (hr : ptRegsAt c.mem (c.gpr .esp) = r) :
    stackSeg (unwound c r) 4 = r.cs ∧ stackSeg (unwound c r) 16 = r.ss := by
  have h48 : c.gpr .esp - 12 + 56 + 4 = c.gpr .esp + 48 := by bv_omega
  have h60 : c.gpr .esp - 12 + 56 + 16 = c.gpr .esp + 60 := by bv_omega
  subst hr
  exact ⟨congrArg (fun a => lowHalf (read32 c.mem a)) h48,
    congrArg (fun a => lowHalf (read32 c.mem a)) h60⟩

/-- Within the kernel `iret` goes back whatever is in the stack segment's place. -/
theorem returns_kernelCs (ss : Half) : Gdt.kernelSegments.returns 0 kernelCs ss = true := by
  have h1 : (!isNull kernelCs && (Gdt.kernelSegments kernelCs).any (fun d =>
      d.code && d.dpl == rpl kernelCs && decide (0 ≤ rpl kernelCs))) = true := by decide
  have h2 : (rpl kernelCs == 0) = true := by decide
  rw [Segments.returns, h1, h2]
  rfl

/-- **`forkret_s` returns to the frame at `esp`**, within the kernel. -/
theorem runTrap_forkretS {c : Cpu} (hr : ptRegsAt c.mem (c.gpr .esp) = r)
    (hc : c.seg .cs = kernelCs) (hcs : r.cs = kernelCs) (hds : r.ds = kernelDs) :
    runTrap Gdt.kernelSegments c forkretS = some (returned c.mem (c.gpr .esp) r) := by
  have hcpl : rpl (c.seg .cs) = 0 := by rw [hc]; rfl
  rw [runTrap_unwind hr, hcpl, hds, if_pos (by decide)]
  have h44 : c.gpr .esp - 12 + 56 = c.gpr .esp + 44 := by bv_omega
  have h52 : c.gpr .esp - 12 + 56 + 8 = c.gpr .esp + 52 := by bv_omega
  have h56 : c.gpr .esp - 12 + 56 + 12 = c.gpr .esp + 56 := by bv_omega
  have hcs' := (stackSeg_unwound hr).1
  rw [hcs] at hcs'
  have hcpl' : rpl ((unwound c r).seg .cs) = 0 := hcpl
  unfold iret
  dsimp only
  rw [hcs', hcpl', if_pos (returns_kernelCs _), if_neg (by decide)]
  subst hr
  refine congrArg some (Cpu.ext (funext fun q => ?_) ?_ rfl (funext fun q => ?_) ?_)
  · cases q with
    | esp => exact h56
    | _ => rfl
  · exact congrArg (read32 c.mem) h44
  · cases q with
    | cs => exact hcs.symm
    | _ => rfl
  · exact congrArg (fun a => (read32 c.mem a).getLsbD 9) h52

/-! ## A task that waits to run -/

/-- Where `copy_thread` puts the frame of `task`. -/
def frameOf (task : Word) : Word := taskToStack task - ptRegsSize

/-- What a task leaves from when it runs for the first time. -/
def resting (task : Word) : Set Word :=
  bytesFrom (contextField task) 32 ∪ bytesFrom (frameOf task) 64

/-- `task` will start through `forkret_s` with `r` on top of its stack. -/
structure Ready (forkretAddr : Word) (m : Memory) (task : Word) (r : PtRegs) : Prop where
  eip : read32 m (contextField task + 0) = forkretAddr
  esp : read32 m (contextField task + 4) = frameOf task
  frame : ptRegsAt m (frameOf task) = r

variable {forkretAddr kthreadEntry : Word}

theorem Ready.congr (h : Ready forkretAddr m task r) (hm : ∀ x ∈ resting task, m x = m' x) :
    Ready forkretAddr m' task r where
  eip := by
    rw [← h.eip]
    exact (read32_congr fun x hx => hm x (Or.inl (field_subset _ (k := 0) (by decide) hx))).symm
  esp := by
    rw [← h.esp]
    exact (read32_congr fun x hx => hm x (Or.inl (field_subset _ (k := 4) (by decide) hx))).symm
  frame := by
    rw [← h.frame]
    exact (ptRegsAt_congr fun x hx => hm x (Or.inr hx)).symm

theorem frameOf_eq (task : Word) : frameOf task = task + 4024 := by
  unfold frameOf taskToStack stackSize ptRegsSize
  bv_omega

/-- Both are in the page of the task. -/
theorem resting_subset (task : Word) : resting task ⊆ bytesFrom task 4096 := by
  refine Set.union_subset (bytesFrom_subset task (k := 56) (by decide) (by decide)) ?_
  rw [frameOf_eq]
  exact bytesFrom_subset task (k := 4024) (by decide) (by decide)

/-- The context and the frame of a task lie apart. -/
theorem context_frame_disjoint (task : Word) :
    Disjoint (bytesFrom (frameOf task) 64) (bytesFrom (contextField task) 32) := by
  rw [frameOf_eq]
  unfold contextField
  exact bytesFrom_disjoint (by bv_omega) (by bv_omega)

theorem copyThread_ready (h : read32 m (stackField task) = taskToStack task) :
    Ready forkretAddr (copyThread forkretAddr m task r) task
      { r with eax := 0, esp := taskToStack task, eflags := r.eflags ||| flIf } := by
  have hp : taskToStack task - ptRegsSize = frameOf task := rfl
  have apart {x : Word} {k : Nat} (hk : k + 4 ≤ 32) (hx : x ∈ bytesFrom (frameOf task) 64) :
      x ∉ bytesFrom (contextField task + BitVec.ofNat 32 k) 4 := fun hc =>
    Set.disjoint_left.1 (context_frame_disjoint task) hx (field_subset _ hk hc)
  dsimp only [copyThread]
  rw [h, hp]
  refine ⟨?_, read32_write32 .., ?_⟩
  · rw [read32_write32_of_disjoint (bytesFrom_add_disjoint _ (by decide) (by decide)),
      read32_write32]
  · refine (ptRegsAt_congr fun x hx => ?_).trans
      (ptRegsAt_patched (write32 m (ptRegsField task) (frameOf task)) (frameOf task) r 0
        (taskToStack task) flIf)
    exact (write32_of_notMem (apart (k := 4) (by decide) hx)).trans
      (write32_of_notMem (apart (k := 0) (by decide) hx))

/-- The stack of a new `task_struct`. -/
theorem allocTaskStruct_stack (m : Memory) (task : Word) :
    read32 (allocTaskStruct m task) (stackField task) = taskToStack task :=
  read32_write32 ..

variable {k k' : Kernel} {addr func args cloneFlags : Word} {ret : Int}

theorem doFork_ready (hf : doFork forkretAddr k m addr cloneFlags r = .ok (ret, k', m'))
    (hs : 0 ≤ ret) :
    Ready forkretAddr m' (addr + BitVec.ofNat 32 kernbase)
      { r with
        eax := 0
        esp := taskToStack (addr + BitVec.ofNat 32 kernbase)
        eflags := r.eflags ||| flIf } := by
  simp only [doFork, bind, Except.bind] at hf
  generalize addr + BitVec.ofNat 32 kernbase = task at hf ⊢
  split at hf
  · obtain ⟨rfl, -⟩ := Prod.mk.inj (Except.ok.inj hf)
    exact absurd hs (by decide)
  split at hf
  · cases hf
  split at hf
  · obtain ⟨rfl, -⟩ := Prod.mk.inj (Except.ok.inj hf)
    exact absurd hs (by decide)
  split at hf
  · obtain ⟨rfl, -⟩ := Prod.mk.inj (Except.ok.inj hf)
    exact absurd hs (by decide)
  · obtain ⟨-, h⟩ := Prod.mk.inj (Except.ok.inj hf)
    obtain ⟨-, rfl⟩ := Prod.mk.inj h
    exact copyThread_ready (allocTaskStruct_stack ..)

/-- The child gets the next number. -/
theorem forked_pid (k : Kernel) (t : Addr) :
    (((k.forkCommit t).wakeupTask t).task t).pid = (allocPid k.glbPidMap).2 := by
  rw [(wakeupTask_same _ t t).2]
  exact congrArg TaskStruct.pid (Kernel.setTask_self ..)

/-- With room for one more, the child gets a number and is woken up. -/
theorem doFork_ok (hn : k.nrTask < maxTask) (ha : addr ≠ 0)
    (ht : addr + BitVec.ofNat 32 kernbase = task) (h0 : task ≠ 0) :
    doFork forkretAddr k m addr cloneFlags r = .ok ((allocPid k.glbPidMap).2,
      ((k.allocTaskStruct task.toNat).forkCommit task.toNat).wakeupTask task.toNat,
      copyThread forkretAddr (allocTaskStruct m task) task r) := by
  simp only [doFork, kassert, bind, Except.bind, ht, if_neg (Int.not_le.2 hn),
    if_pos (decide_eq_true ha), copyMm, h0, and_false, if_false, ne_eq,
    not_true_eq_false, forked_pid]
  rfl

/-! ## The first switch -/

/-- `s` is reached while nobody writes to `P` of the memory `m`: tasks run and switch among each
other. -/
inductive Waiting (P : Set Word) (m : Memory) : State → Prop where
  | run {s : State} : (∀ x ∈ P, s.mem x = m x) → Waiting P m s
  | switch {s t : State} {prev next : Word} : Waiting P m s → Call s prev next →
      Disjoint P (saveWrites s prev) → Disjoint P (restoreWrites s next) →
      (∀ x ∈ P, t.mem x = (switchTo s).mem x) → Waiting P m t

theorem Waiting.mem {P : Set Word} : ∀ {s : State}, Waiting P m s → ∀ x ∈ P, s.mem x = m x
  | _, .run h, x, hx => h x hx
  | _, .switch h hc hs hr ht, x, hx => by
    rw [ht x hx, hc.switchTo_frame (Set.disjoint_left.1 hs hx) (Set.disjoint_left.1 hr hx),
      h.mem x hx]

/-- **Where a kernel thread starts**: at `kthread_entry`, which calls `ebx` with `edx` as its
argument, in the kernel's segments, with interrupts on, and on the stack of its own page. -/
structure Started (kthreadEntry task func args : Word) (c : Cpu) : Prop where
  eip : c.eip = kthreadEntry
  ebx : c.gpr .ebx = func
  edx : c.gpr .edx = args
  eax : c.gpr .eax = 0
  segs : ∀ q, c.seg q = if q = .cs then kernelCs else kernelDs
  intr : c.intr = true
  above : taskStructSize ≤ (c.gpr .esp - task).toNat
  within : (c.gpr .esp - task).toNat < stackSize.toNat

/-- `switch_to` works in the 8 bytes below the frame. -/
theorem resting_below (task : Word) : Disjoint (resting task) (bytesFrom (frameOf task - 8) 8) := by
  unfold resting contextField
  rw [frameOf_eq]
  exact Set.disjoint_union_left.2
    ⟨bytesFrom_disjoint (by bv_omega) (by bv_omega), bytesFrom_disjoint (by bv_omega) (by bv_omega)⟩

/-- `iret` leaves the stack pointer behind `eflags`. -/
theorem frameOf_add_sub (task : Word) : (frameOf task + 56 - task).toNat = 4080 := by
  rw [frameOf_eq]
  bv_omega

/-- The first switch to a task that waits goes to `forkret_s`, with its frame on top of the
stack. -/
theorem Ready.switch {c : Cpu} {prev : Word} (h : Ready forkretAddr c.mem task r)
    (hc : Call c.toState prev (contextField task))
    (hd : Disjoint (resting task) (saveWrites c.toState prev)) :
    (cpuSwitchTo c).eip = forkretAddr ∧ (cpuSwitchTo c).gpr .esp = frameOf task ∧
      ptRegsAt (cpuSwitchTo c).mem (frameOf task) = r := by
  have hsave : Ready forkretAddr (run c.toState save).mem task r :=
    h.congr fun x hx => (hc.save_frame (Set.disjoint_left.1 hd hx)).symm
  have hbelow : Disjoint (bytesFrom (read32 (run c.toState save).mem (contextField task + 4) - 8) 8)
      (bytesFrom (contextField task) 32) := by
    rw [hsave.esp]
    exact ((resting_below task).mono_left Set.subset_union_left).symm
  have hregs := registers_restore hc.save_next_arg hbelow
  have hrest : Ready forkretAddr (switchTo c.toState).mem task r := by
    refine hsave.congr fun x hx => ?_
    rw [switchTo_eq, restore_frame hc.save_next_arg]
    rw [hsave.esp]
    exact Set.disjoint_left.1 (resting_below task) hx
  rw [← switchTo_eq] at hregs
  exact ⟨(congrArg Context.eip hregs).trans hsave.eip, (congrArg Context.esp hregs).trans hsave.esp,
    hrest.frame⟩

/-- **New threads start where they should.** Once `kernel_thread` has made a task, and while nobody
writes to its context and its frame, the first switch to it ends in `forkret_s`, and `forkret_s` in
`kthread_entry`. -/
theorem kthread_started {c : Cpu} {prev : Word}
    (hf : kernelThread forkretAddr kthreadEntry k m addr func args cloneFlags = .ok (ret, k', m'))
    (hs : 0 ≤ ret) (ht : task = addr + BitVec.ofNat 32 kernbase)
    (hw : Waiting (resting task) m' c.toState) (hc : Call c.toState prev (contextField task))
    (hd : Disjoint (resting task) (saveWrites c.toState prev)) (hcs : c.seg .cs = kernelCs) :
    (cpuSwitchTo c).eip = forkretAddr ∧
      ∃ c', runTrap Gdt.kernelSegments (cpuSwitchTo c) forkretS = some c' ∧
        Started kthreadEntry task func args c' := by
  subst ht
  have hready := (doFork_ready hf hs).congr fun x hx => (hw.mem x hx).symm
  obtain ⟨heip, hesp, hframe⟩ := hready.switch hc hd
  have hframe' : ptRegsAt (cpuSwitchTo c).mem ((cpuSwitchTo c).gpr .esp) = _ :=
    (congrArg _ hesp).trans hframe
  refine ⟨heip, _, runTrap_forkretS hframe' hcs rfl rfl, ?_⟩
  rw [hesp]
  refine ⟨rfl, rfl, rfl, rfl, fun q => rfl, ?_, ?_, ?_⟩
  · simp only [returned, kthreadRegs, PtRegs.zero]
    decide
  · show 368 ≤ (frameOf _ + 56 - _).toNat
    rw [frameOf_add_sub]
    decide
  · show (frameOf _ + 56 - _).toNat < 4096
    rw [frameOf_add_sub]
    decide

/-! ### A thread of idle

Idle's page is at `0xC0001000`, the new task's at `0xC0002000`. -/

/-- Memory after idle has made a thread that is to call `0x300` with 7. -/
def threadMem : Memory :=
  copyThread 0x100 (allocTaskStruct (fun _ => 0) 0xC0002000) 0xC0002000 (kthreadRegs 0x200 0x300 7)

/-- Idle calls `switch_to(0xC0001038, 0xC0002038)`. -/
def leaveIdle : Cpu where
  gpr r := if r = .esp then 0xC0001F00 else 0
  eip := 0
  mem := write32 (write32 threadMem 0xC0001F04 0xC0001038) 0xC0001F08 0xC0002038
  seg q := if q = .cs then kernelCs else kernelDs
  intr := false

theorem leaveIdle_call : Call leaveIdle.toState 0xC0001038 (contextField 0xC0002000) where
  prev_arg := by
    show read32 (write32 (write32 threadMem 0xC0001F04 0xC0001038) 0xC0001F08 _) 0xC0001F04 = _
    rw [read32_write32_of_disjoint (bytesFrom_disjoint (by decide) (by decide)), read32_write32]
  next_arg := read32_write32 _ _ _
  apart := bytesFrom_disjoint (by decide) (by decide)

/-- Idle's stack and context are in another page. -/
theorem resting_apart {e : Word} {n : Nat} (h1 : 4096 ≤ (e - 0xC0002000).toNat)
    (h2 : n ≤ (0xC0002000 - e).toNat) :
    Disjoint (resting 0xC0002000) (bytesFrom e n) :=
  (bytesFrom_disjoint h1 h2).mono_left (resting_subset _)

theorem kthread_started_idle :
    (cpuSwitchTo leaveIdle).eip = 0x100 ∧
      ∃ c', runTrap Gdt.kernelSegments (cpuSwitchTo leaveIdle) forkretS = some c' ∧
        Started 0x200 0xC0002000 0x300 7 c' := by
  have hfork : ∃ k', kernelThread 0x100 0x200 bare (fun _ => 0) 0x2000 0x300 7 0 =
      .ok ((allocPid bare.glbPidMap).2, k', threadMem) :=
    ⟨_, doFork_ok (by decide) (by decide) (by decide) (by decide)⟩
  obtain ⟨k', hk⟩ := hfork
  refine kthread_started hk (by decide) (by decide) (.run fun x hx => ?_) leaveIdle_call ?_ rfl
  · exact (write32_of_notMem (Set.disjoint_left.1 (resting_apart (by decide) (by decide)) hx)).trans
      (write32_of_notMem (Set.disjoint_left.1 (resting_apart (by decide) (by decide)) hx))
  · exact Set.disjoint_union_right.2
      ⟨resting_apart (by decide) (by decide), resting_apart (by decide) (by decide)⟩

end Hurlex.Task
