import Hurlex.Kernel.Intr

/-!
# Into an interrupt and back (`arch/i386/intr/intr_s.s`)

From the instruction that is interrupted through the gate, the routine of the vector (lines 16 to 69 and
104 to 127) and the common stub (lines 74 to 87 and 132 to 146) to the C function, which gets a pointer
to the `pt_regs_t` on the stack; and from its return through the rest of the stub (lines 88 to 99 and
147 to 159) back to the program. What the C function and the handler it calls do in between is any
change of memory and of the registers that leaves the stack and the code segment as the calling
convention wants them, and some `pt_regs_t` where the old one was.

The stub saves `ds` only, and loads it on the way back into `es`, `fs`, `gs` and `ss`, too. At level 0
the processor takes nothing into `ss` but the selector of a stack of level 0.

* **`interrupt_enters`**: the C function finds the interrupted program in the `pt_regs_t`.
* **`interrupt_resumes`**: the kernel goes on with what is in the `pt_regs_t` then.
* **`interrupt_faults`**: a program with another `ds`, as all in user mode, never goes on.
* **`interrupt_transparent_iff`**: a handler that leaves the `pt_regs_t` alone is not noticed exactly
  by the kernel with its own selector in all segment registers for data.

Out of scope: interrupts that come while another one is entered or left, faults of the processor's own
pushes, and what the handlers do.
-/

namespace Hurlex.Intr

open Lib.Machine Hurlex.Task

/-! ## The whole way in -/

/-- Vector `v` while `c` runs; `soft` is an `int` instruction, which asks for the level of the gate.
There is no way in without a gate. -/
def enter (i : Image) (t : Idt) (tss : InnerStack) (v : Nat) (soft : Bool) (eflags : Word)
    (code : Option Word) (c : Cpu) : Option Cpu :=
  match decodeGate (t v).word with
  | none => none
  | some g =>
    if soft && g.dpl.toNat < rpl (c.seg .cs) then none
    else
      let c := deliver g tss eflags code c
      runEntry Gdt.kernelSegments c (i.code c.eip)

/-- The program runs in user mode. -/
def outer (c : Cpu) : Bool := 0 < rpl (c.seg .cs)

/-- The top of the stack the interrupt uses. -/
def stackTop (tss : InnerStack) (c : Cpu) : Word := if outer c then tss.esp else c.gpr .esp

/-- What the processor and the routine of the vector push, the top word first. -/
def headStack (v : Nat) (eflags : Word) (code : Option Word) (c : Cpu) : List Word :=
  [BitVec.ofNat 32 v, code.getD 0, c.eip, (c.seg .cs).setWidth 32, eflags] ++
    if outer c then [c.gpr .esp, (c.seg .ss).setWidth 32] else []

/-- What the common stub pushes, the top word first. -/
def stubStack (c : Cpu) (back : Word) : List Word :=
  [back, c.gpr .esp - 36, setLow (c.gpr .eax) (c.seg .ds)] ++ (pushaRegs.map c.gpr).reverse

/-- The program `c` is in the frame `r`. -/
structure Saved (c : Cpu) (v : Nat) (eflags : Word) (code : Option Word) (r : PtRegs) : Prop where
  ds : r.ds = c.seg .ds
  edi : r.edi = c.gpr .edi
  esi : r.esi = c.gpr .esi
  ebp : r.ebp = c.gpr .ebp
  ebx : r.ebx = c.gpr .ebx
  edx : r.edx = c.gpr .edx
  ecx : r.ecx = c.gpr .ecx
  eax : r.eax = c.gpr .eax
  intNo : r.intNo = BitVec.ofNat 32 v
  errCode : r.errCode = code.getD 0
  eip : r.eip = c.eip
  cs : r.cs = c.seg .cs
  eflags : r.eflags = eflags
  stack : outer c = true → r.esp = c.gpr .esp ∧ r.ss = c.seg .ss

/-- The state in which the C function starts: its argument is a pointer to the frame. -/
structure Entered (i : Image) (v : Nat) (eflags : Word) (code : Option Word) (tss : InnerStack)
    (c c₁ : Cpu) : Prop where
  eip : c₁.eip = i.handler v
  back : read32 c₁.mem (c₁.gpr .esp) = i.back v
  arg : read32 c₁.mem (c₁.gpr .esp + 4) = c₁.gpr .esp + 8
  saved : Saved c v eflags code (ptRegsAt c₁.mem (c₁.gpr .esp + 8))
  seg : ∀ q, c₁.seg q = if q = .cs then kernelCs else kernelDs
  intr : c₁.intr = (v == 128 && c.intr)
  esp : c₁.gpr .esp = stackTop tss c - if outer c then 72 else 64
  frame : ∀ x ∉ bytesFrom (c₁.gpr .esp) (if outer c then 72 else 64), c₁.mem x = c.mem x

/-! ## Pushing the frame -/

variable {c : Cpu} {table h b : Word}

/-- In front of the loads of the segment registers. -/
def stubHead (c : Cpu) : Cpu :=
  let s := pushWords c.toState (pushaRegs.map c.gpr)
  let s := s.set .eax (setLow (s.gpr .eax) (c.seg .ds))
  let s := exec s (.push .eax)
  { c with toState := s.set .eax (setLow (s.gpr .eax) 0x10) }

/-- In front of the first instruction of the C function `h`. -/
def stubbed (c : Cpu) (h b : Word) : Cpu where
  toState := { pushWord (exec (stubHead c).toState (.push .esp)) b with eip := h }
  seg q := if q = .cs then c.seg .cs else kernelDs
  intr := c.intr

/-- **The common stub never faults**: its selector is that of the kernel's data segment. -/
theorem runEntry_commonStub (hcs : c.seg .cs = kernelCs) (h b : Word) :
    runEntry Gdt.kernelSegments c (commonStub h b) = some (stubbed c h b) := by
  have hsplit : commonStub h b =
      [.pusha, .movFromSeg .eax .ds, .trap (.plain (.push .eax)), .movLow .eax 0x10] ++
        ((loadData .eax).map .trap ++ [.trap (.plain (.push .esp)), .call h b]) := rfl
  have hhead : runEntry Gdt.kernelSegments c [.pusha, .movFromSeg .eax .ds,
      .trap (.plain (.push .eax)), .movLow .eax 0x10] = some (stubHead c) := rfl
  have hv : ((stubHead c).gpr .eax).setWidth 16 = kernelDs := lowHalf_append _ _
  have hcpl : rpl ((stubHead c).seg .cs) = 0 := by
    show rpl (c.seg .cs) = 0
    rw [hcs]
    rfl
  rw [hsplit, runEntry_append, hhead, Option.bind_some, runEntry_append, runEntry_trap,
    runTrap_loadData _ _ _ hv, hcpl, if_pos (by decide), Option.bind_some]
  rfl

theorem stubbed_toState (c : Cpu) (h b : Word) :
    (stubbed c h b).mem = (pushWords c.toState (stubStack c b).reverse).mem ∧
      (stubbed c h b).gpr .esp = (pushWords c.toState (stubStack c b).reverse).gpr .esp := by
  have hesp : c.gpr .esp - 36 = (pushWords c.toState
      (pushaRegs.map c.gpr ++ [setLow (c.gpr .eax) (c.seg .ds)])).gpr .esp := by
    rw [pushWords_esp]
    rfl
  unfold stubStack
  rw [hesp]
  exact ⟨rfl, rfl⟩

variable {i : Image} {v : Nat} {eflags : Word} {code : Option Word} {tss : InnerStack} {g : Gate}

/-- What a vector's own routine pushes. -/
def vectorStub (v : Nat) : List EntryInstr :=
  (if pushesCode v then [] else [.pushImm 0]) ++ [.pushImm (BitVec.ofNat 32 v)]

theorem isrStub_eq (n : Nat) : isrStub n = vectorStub n := by
  by_cases hn : n < 18
  · have h : ∀ n < 18, isrStub n = vectorStub n := by decide
    exact h n hn
  · obtain ⟨k, rfl⟩ := Nat.exists_eq_add_of_le' (Nat.not_lt.1 hn)
    have hk : pushesCode (k + 18) = false := by simp [pushesCode]
    rw [vectorStub, hk]
    rfl

/-- Behind each gate is the routine of its own vector. -/
theorem code_served (i : Image) (table : Word) (hv : Served v) :
    ∃ g, decodeGate ((idtInit i.isr i.irq table emptyIdt).2 v).word = some g ∧ g.selector = 8 ∧
      g.dpl = (if v = 128 then 3 else 0) ∧ g.trap = (v == 128) ∧
      i.code g.offset = vectorStub v ++ commonStub (i.handler v) (i.back v) := by
  rw [idtInit_gate]
  rcases hv with hv | rfl
  · refine ⟨_, if_pos hv, rfl, (if_neg (by omega)).symm, by simp; omega, ?_⟩
    show i.code (isrIrqFunc i.isr i.irq v) = _
    unfold isrIrqFunc
    by_cases h32 : v < 32
    · have hline : isLine v = false := by simp [isLine]; omega
      rw [if_pos h32, i.code_isr v (.inl h32), isrStub_eq, Image.handler, Image.back, hline]
      rfl
    · have hline : isLine v = true := by simp [isLine]; omega
      have hcode : pushesCode v = false := by simp [pushesCode]; omega
      rw [if_neg h32, if_pos hv, i.code_irq _ (by omega), Image.handler, Image.back, hline,
        vectorStub, hcode, show 32 + (v - 32) = v by omega]
      rfl
  · refine ⟨_, rfl, rfl, rfl, rfl, ?_⟩
    rw [i.code_isr 128 (.inr rfl), isrStub_eq]
    rfl

/-! ## Entering -/

/-- The stack the processor has chosen. -/
def entryState (tss : InnerStack) (c : Cpu) : State :=
  if outer c then c.toState.set .esp tss.esp else c.toState

theorem entryState_esp (tss : InnerStack) (c : Cpu) :
    (entryState tss c).gpr .esp = stackTop tss c := by
  unfold entryState stackTop
  cases outer c <;> rfl

theorem entryState_gpr (tss : InnerStack) (c : Cpu) {r : Reg} (hr : r ≠ .esp) :
    (entryState tss c).gpr r = c.gpr r := by
  unfold entryState
  cases outer c with
  | false => rfl
  | true => exact if_neg hr

theorem entryState_mem (tss : InnerStack) (c : Cpu) : (entryState tss c).mem = c.mem := by
  unfold entryState
  cases outer c <;> rfl

/-- What a vector's own routine pushes, by number and for the missing code. -/
def vectorWords (v : Nat) : List Word :=
  (if pushesCode v then [] else [0]) ++ [BitVec.ofNat 32 v]

/-- In front of the common stub. -/
def arrived (g : Gate) (tss : InnerStack) (v : Nat) (eflags : Word) (code : Option Word) (c : Cpu) :
    Cpu :=
  let c := deliver g tss eflags code c
  { c with toState := pushWords c.toState (vectorWords v) }

theorem runEntry_vectorStub (t : Segments) (v : Nat) :
    runEntry t (deliver g tss eflags code c) (vectorStub v) =
      some (arrived g tss v eflags code c) := by
  unfold vectorStub arrived vectorWords
  cases pushesCode v
  · rfl
  · rfl

theorem arrived_toState (tss : InnerStack) (eflags : Word) (c : Cpu) (hsel : g.selector = 8)
    (hcode : code.isSome = pushesCode v) :
    (arrived g tss v eflags code c).toState =
      { pushWords (entryState tss c) (headStack v eflags code c).reverse with eip := g.offset } := by
  have hinner : decide (rpl g.selector < rpl (c.seg .cs)) = outer c := by rw [hsel]; rfl
  unfold arrived deliver vectorWords
  rw [hinner, ← hcode]
  unfold trapWords headStack entryState
  cases outer c <;> cases code <;> rfl

/-- Without the code the routine counts on, there is a word less. -/
theorem arrived_toState_short (tss : InnerStack) (eflags : Word) (hsel : g.selector = 8)
    (hv : pushesCode v = true) (ho : outer c = false) : (arrived g tss v eflags none c).toState =
      { pushWords (entryState tss c) [eflags, (c.seg .cs).setWidth 32, c.eip, BitVec.ofNat 32 v] with
        eip := g.offset } := by
  have hinner : decide (rpl g.selector < rpl (c.seg .cs)) = false := by
    rw [hsel]
    exact ho
  unfold arrived deliver vectorWords entryState
  rw [hinner, hv, ho]
  rfl

theorem arrived_seg (hsel : g.selector = 8) :
    (arrived g tss v eflags code c).seg .cs = kernelCs ∧
      (arrived g tss v eflags code c).seg .ds = c.seg .ds := by
  unfold arrived deliver
  rw [hsel]
  cases decide (rpl (8 : Half) < rpl (c.seg .cs)) <;> exact ⟨rfl, rfl⟩

theorem arrived_intr : (arrived g tss v eflags code c).intr = (g.trap && c.intr) := rfl

/-- The whole stack of an interrupt, the top word first. `a` is the stack pointer in front of `pusha`,
and `head` what is on the stack then. -/
def entryStack (c : Cpu) (a back : Word) (head : List Word) : List Word :=
  [back, a - 36, setLow (c.gpr .eax) (c.seg .ds), c.gpr .edi, c.gpr .esi, c.gpr .ebp, a,
    c.gpr .ebx, c.gpr .edx, c.gpr .ecx, c.gpr .eax] ++ head

theorem length_headStack : (headStack v eflags code c).length = if outer c then 7 else 5 := by
  unfold headStack
  cases outer c <;> rfl

/-- In front of the C function, the whole stack has been pushed. -/
theorem entry_stack {a : Word} {head : List Word} (hsel : g.selector = 8)
    (hstate : (arrived g tss v eflags code c).toState =
      { pushWords (entryState tss c) head.reverse with eip := g.offset })
    (ha : a = stackTop tss c - BitVec.ofNat 32 (4 * head.length)) :
    let c₁ := stubbed (arrived g tss v eflags code c) h b
    let s := pushWords (entryState tss c) (entryStack c a b head).reverse
    c₁.mem = s.mem ∧ c₁.gpr .esp = s.gpr .esp := by
  intro c₁ s
  set k := arrived g tss v eflags code c with hk
  have hgpr : ∀ r, r ≠ .esp → k.gpr r = c.gpr r := by
    intro r hr
    rw [hstate]
    exact (pushWords_gpr hr _ _).trans (entryState_gpr tss c hr)
  have hesp : k.gpr .esp = a := by
    rw [hstate, ha, ← entryState_esp]
    refine (pushWords_esp _ _).trans ?_
    rw [List.length_reverse]
  have hstub : stubStack k b ++ head = entryStack c a b head := by
    unfold stubStack pushaRegs entryStack
    rw [hesp, (arrived_seg hsel).2, hgpr .eax (by decide)]
    simp only [List.map_cons, List.map_nil, hgpr .eax (by decide), hgpr .ecx (by decide),
      hgpr .edx (by decide), hgpr .ebx (by decide), hgpr .ebp (by decide), hgpr .esi (by decide),
      hgpr .edi (by decide), hesp]
    rfl
  have hs : pushWords k.toState (stubStack k b).reverse = { s with eip := g.offset } := by
    rw [hstate, pushWords_eip, ← pushWords_append, ← List.reverse_append, hstub]
  obtain ⟨hmem, hsp⟩ := stubbed_toState k h b
  rw [show c₁ = stubbed k h b from rfl, hmem, hsp, hs]
  exact ⟨rfl, rfl⟩

/-- The `j`-th word of it, from the top. -/
theorem entry_read {a : Word} {head : List Word} (hsel : g.selector = 8)
    (hstate : (arrived g tss v eflags code c).toState =
      { pushWords (entryState tss c) head.reverse with eip := g.offset })
    (ha : a = stackTop tss c - BitVec.ofNat 32 (4 * head.length)) (hlen : head.length ≤ 7) {j : Nat}
    (hj : j < (entryStack c a b head).length) :
    read32 (stubbed (arrived g tss v eflags code c) h b).mem
      ((stubbed (arrived g tss v eflags code c) h b).gpr .esp + BitVec.ofNat 32 (4 * j)) =
        (entryStack c a b head)[j] := by
  obtain ⟨hmem, hesp⟩ := entry_stack (h := h) (b := b) hsel hstate ha
  have hsmall : (entryStack c a b head).length = head.length + 11 := by
    rw [entryStack, List.length_append]
    exact Nat.add_comm ..
  rw [hmem, hesp]
  exact read32_stack _ _ (by omega) hj

theorem lowHalf_setWidth (x : Half) : lowHalf (x.setWidth 32) = x := by
  unfold lowHalf
  rw [BitVec.setWidth_setWidth_of_le _ (by decide), BitVec.setWidth_eq]

/-- The frame is the part of the stack above the argument. -/
theorem saved_of_stack {m : Memory} {sp a : Word}
    (hst : ∀ j (hj : j < (entryStack c a b (headStack v eflags code c)).length),
      read32 m (sp + BitVec.ofNat 32 (4 * j)) = (entryStack c a b (headStack v eflags code c))[j]) :
    Saved c v eflags code (ptRegsAt m (sp + 8)) := by
  have hlen : (entryStack c a b (headStack v eflags code c)).length = if outer c then 18 else 16 := by
    rw [entryStack, List.length_append, length_headStack]
    cases outer c <;> rfl
  have hlen16 : 16 ≤ (entryStack c a b (headStack v eflags code c)).length := by
    rw [hlen]
    cases outer c <;> decide
  have field {j : Nat} (hj : j + 2 < (entryStack c a b (headStack v eflags code c)).length) :
      read32 m (sp + 8 + BitVec.ofNat 32 (4 * j)) =
        (entryStack c a b (headStack v eflags code c))[j + 2] := by
    rw [← hst (j + 2) hj, BitVec.add_assoc]
    congr 2
    bv_omega
  refine
    { ds := (congrArg lowHalf (field (j := 0) (by omega))).trans (lowHalf_append _ _)
      edi := field (j := 1) (by omega)
      esi := field (j := 2) (by omega)
      ebp := field (j := 3) (by omega)
      ebx := field (j := 5) (by omega)
      edx := field (j := 6) (by omega)
      ecx := field (j := 7) (by omega)
      eax := field (j := 8) (by omega)
      intNo := field (j := 9) (by omega)
      errCode := field (j := 10) (by omega)
      eip := field (j := 11) (by omega)
      cs := (congrArg lowHalf (field (j := 12) (by omega))).trans (lowHalf_setWidth _)
      eflags := field (j := 13) (by omega)
      stack := fun ho => ?_ }
  rw [ho] at hlen
  have hlen' : (entryStack c a b (headStack v eflags code c)).length = 18 := hlen
  have hget : ∀ j (hj : j < (entryStack c a b (headStack v eflags code c)).length),
      (entryStack c a b (headStack v eflags code c))[j] =
        (entryStack c a b (headStack v eflags code c)).getD j 0 := by
    intro j hj
    simp [List.getD, hj]
  have h14 := (field (j := 14) (by omega)).trans (hget _ _)
  have h15 := (field (j := 15) (by omega)).trans (hget _ _)
  unfold entryStack headStack at h14 h15
  rw [ho] at h14 h15
  exact ⟨h14, (congrArg lowHalf h15).trans (lowHalf_setWidth _)⟩

/-- A vector that has a gate the program may use. -/
def Allowed (v : Nat) (soft : Bool) (c : Cpu) : Prop :=
  Served v ∧ (soft = true → outer c = true → v = 128)

/-- Behind its gate nothing keeps the vector from the C function. -/
theorem enter_eq_some (i : Image) (table : Word) (tss : InnerStack) {soft : Bool}
    (eflags : Word) (code : Option Word) {c : Cpu} (hv : Allowed v soft c) :
    ∃ g : Gate, g.selector = 8 ∧ g.trap = (v == 128) ∧
      enter i (idtInit i.isr i.irq table emptyIdt).2 tss v soft eflags code c =
        some (stubbed (arrived g tss v eflags code c) (i.handler v) (i.back v)) := by
  obtain ⟨hv, hsoft⟩ := hv
  obtain ⟨g, hg, hsel, hdpl, htrap, himage⟩ := code_served i table hv
  refine ⟨g, hsel, htrap, ?_⟩
  have hlevel : (soft && decide (g.dpl.toNat < rpl (c.seg .cs))) = false := by
    rw [hdpl, Bool.and_eq_false_iff]
    cases soft with
    | false => exact .inl rfl
    | true =>
      right
      have hrpl : rpl (c.seg .cs) < 4 := Nat.mod_lt _ (by decide)
      by_cases h128 : v = 128
      · rw [if_pos h128]
        exact decide_eq_false (by show ¬ 3 < _; omega)
      · rw [if_neg h128]
        exact Bool.eq_false_iff.2 fun h => h128 (hsoft rfl h)
  unfold enter
  rw [hg]
  show (if _ then none else runEntry _ _ (i.code g.offset)) = _
  rw [hlevel, himage, if_neg (by decide), runEntry_append, runEntry_vectorStub, Option.bind_some,
    runEntry_commonStub (arrived_seg hsel).1]

/-- With a code on the stack exactly where the vector's routine counts on it, the frame is right. -/
theorem entered_stubbed (i : Image) (tss : InnerStack) (eflags : Word) (c : Cpu)
    (hsel : g.selector = 8) (htrap : g.trap = (v == 128)) (hcode : code.isSome = pushesCode v) :
    Entered i v eflags code tss c
      (stubbed (arrived g tss v eflags code c) (i.handler v) (i.back v)) := by
  set a := stackTop tss c - BitVec.ofNat 32 (4 * (headStack v eflags code c).length) with ha
  set st := entryStack c a (i.back v) (headStack v eflags code c) with hst
  have hhead : (headStack v eflags code c).length = if outer c then 7 else 5 := length_headStack
  have hstlen : st.length = if outer c then 18 else 16 := by
    rw [hst, entryStack, List.length_append, hhead]
    cases outer c <;> rfl
  have hstate := arrived_toState tss eflags c hsel hcode
  obtain ⟨hmem, hesp⟩ := entry_stack (h := i.handler v) (b := i.back v) hsel hstate ha
  set c₁ := stubbed (arrived g tss v eflags code c) (i.handler v) (i.back v) with hc₁
  have hread : ∀ j (hj : j < st.length),
      read32 c₁.mem (c₁.gpr .esp + BitVec.ofNat 32 (4 * j)) = st[j] := fun j hj =>
    entry_read hsel hstate ha (by rw [hhead]; split <;> decide) hj
  have hsp : c₁.gpr .esp = stackTop tss c - if outer c then 72 else 64 := by
    rw [hesp, pushWords_esp, entryState_esp, List.length_reverse, ← hst, hstlen]
    cases outer c <;> rfl
  have hsmall : 4 * st.length ≤ 2 ^ 32 := by
    rw [hstlen]
    cases outer c <;> decide
  constructor
  case eip => rfl
  case back =>
    have h := hread 0 (by rw [hstlen]; cases outer c <;> decide)
    rwa [BitVec.add_zero] at h
  case arg =>
    refine (hread 1 (by rw [hstlen]; cases outer c <;> decide)).trans ?_
    show a - 36 = _
    rw [hsp, ha, hhead]
    cases outer c
    · show _ - BitVec.ofNat 32 (4 * 5) - 36 = _ - 64 + 8
      bv_omega
    · show _ - BitVec.ofNat 32 (4 * 7) - 36 = _ - 72 + 8
      bv_omega
  case saved => exact saved_of_stack hread
  case seg =>
    intro q
    show (if q = .cs then (arrived g tss v eflags code c).seg .cs else kernelDs) = _
    rw [(arrived_seg hsel).1]
  case intr =>
    show (arrived g tss v eflags code c).intr = _
    rw [arrived_intr, htrap]
  case esp => exact hsp
  case frame =>
    intro x hx
    rw [hmem, pushWords_frame _ _ (by rw [List.length_reverse]; exact hsmall), entryState_mem]
    rw [← pushWords_esp, List.length_reverse, hstlen, ← hesp]
    cases ho : outer c
    · rw [ho] at hx; exact hx
    · rw [ho] at hx; exact hx

/-- Without it, the frame starts a word too low: what should be the error code is the address the
program goes on at. -/
structure Short (eflags : Word) (c c₁ : Cpu) : Prop where
  arg : read32 c₁.mem (c₁.gpr .esp + 4) = c₁.gpr .esp + 8
  errCode : (ptRegsAt c₁.mem (c₁.gpr .esp + 8)).errCode = c.eip
  eip : (ptRegsAt c₁.mem (c₁.gpr .esp + 8)).eip = (c.seg .cs).setWidth 32
  cs : (ptRegsAt c₁.mem (c₁.gpr .esp + 8)).cs = lowHalf eflags

theorem short_stubbed (i : Image) (tss : InnerStack) (eflags : Word) (c : Cpu)
    (hsel : g.selector = 8) (hv : pushesCode v = true) (ho : outer c = false) :
    Short eflags c (stubbed (arrived g tss v eflags none c) (i.handler v) (i.back v)) := by
  set head := [BitVec.ofNat 32 v, c.eip, (c.seg .cs).setWidth 32, eflags] with hhead
  set a := stackTop tss c - BitVec.ofNat 32 (4 * head.length) with ha
  have hstate := arrived_toState_short tss eflags hsel hv ho
  obtain ⟨-, hesp⟩ := entry_stack (h := i.handler v) (b := i.back v) hsel hstate ha
  set c₁ := stubbed (arrived g tss v eflags none c) (i.handler v) (i.back v) with hc₁
  have hread {j : Nat} (hj : j < 15) : read32 c₁.mem (c₁.gpr .esp + BitVec.ofNat 32 (4 * j)) =
      (entryStack c a (i.back v) head)[j] := entry_read hsel hstate ha (show 4 ≤ 7 by decide) hj
  have field {j : Nat} (hj : j + 2 < 15) : read32 c₁.mem (c₁.gpr .esp + 8 + BitVec.ofNat 32 (4 * j)) =
      (entryStack c a (i.back v) head)[j + 2] := by
    rw [← hread hj, BitVec.add_assoc]
    congr 2
    bv_omega
  refine ⟨(hread (j := 1) (by decide)).trans ?_, field (j := 10) (by decide),
    field (j := 11) (by decide), congrArg lowHalf (field (j := 12) (by decide))⟩
  show a - 36 = _
  rw [hesp, pushWords_esp, entryState_esp, ha]
  show stackTop tss c - BitVec.ofNat 32 (4 * 4) - 36 = stackTop tss c - BitVec.ofNat 32 (4 * 15) + 8
  bv_omega

theorem enter_of_allowed (i : Image) (table : Word) (tss : InnerStack) {soft : Bool}
    (eflags : Word) {c : Cpu} (hv : Allowed v soft c) (hcode : code.isSome = pushesCode v) :
    ∃ c₁, enter i (idtInit i.isr i.irq table emptyIdt).2 tss v soft eflags code c = some c₁ ∧
      Entered i v eflags code tss c c₁ := by
  obtain ⟨g, hsel, htrap, h⟩ := enter_eq_some i table tss eflags code hv
  exact ⟨_, h, entered_stubbed i tss eflags c hsel htrap hcode⟩

theorem allowed_of_enter {i : Image} {soft : Bool}
    (h : (enter i (idtInit i.isr i.irq table emptyIdt).2 tss v soft eflags code c).isSome = true) :
    Allowed v soft c := by
  unfold enter at h
  rw [idtInit_gate] at h
  by_cases h48 : v < 48
  · rw [if_pos h48] at h
    refine ⟨.inl h48, fun hs ho => ?_⟩
    have hlow : (soft && decide (0 < rpl (c.seg .cs))) = true := by
      rw [hs, Bool.true_and]
      exact ho
    change (if (soft && decide (0 < rpl (c.seg .cs))) = true then none else _).isSome = true at h
    rw [if_pos hlow] at h
    cases h
  · rw [if_neg h48] at h
    by_cases h128 : v = 128
    · exact ⟨.inr h128, fun _ _ => h128⟩
    · rw [if_neg h128] at h
      cases h

/-- **An interrupt arrives**, at every vector that has a gate and, by an `int` instruction in user
mode, at 128 only: the C function of the vector gets a pointer to a `pt_regs_t` in which the
interrupted program is, with the vector and the error code; nothing but the stack below the program
has changed, and interrupts are off unless the program asked for a system call. The exception is an
`int` instruction of the kernel at the vector of a fault with an error code, which it does not push. -/
theorem interrupt_enters (i : Image) (table : Word) (tss : InnerStack) (soft : Bool)
    (eflags : Word) (c : Cpu) (hcode : code.isSome = (pushesCode v && !soft)) :
    ((enter i (idtInit i.isr i.irq table emptyIdt).2 tss v soft eflags code c).isSome = true ↔
      Allowed v soft c) ∧
    ∀ c₁, enter i (idtInit i.isr i.irq table emptyIdt).2 tss v soft eflags code c = some c₁ →
      if soft && pushesCode v then Short eflags c c₁ else Entered i v eflags code tss c c₁ := by
  refine ⟨⟨allowed_of_enter, fun hv => ?_⟩, fun c₁ h => ?_⟩
  · obtain ⟨g, -, -, h⟩ := enter_eq_some i table tss eflags code hv
    rw [h]
    rfl
  · have hv : Allowed v soft c := allowed_of_enter (by rw [h]; rfl)
    obtain ⟨g, hsel, htrap, h'⟩ := enter_eq_some i table tss eflags code hv
    rw [h, Option.some.injEq] at h'
    subst h'
    by_cases hs : (soft && pushesCode v) = true
    · obtain ⟨rfl, hpush⟩ := Bool.and_eq_true_iff.1 hs
      have hnone : code = none := by
        rw [hpush] at hcode
        exact Option.not_isSome_iff_eq_none.1 (by rw [hcode]; decide)
      have hv128 : v ≠ 128 := by
        rintro rfl
        exact absurd hpush (by decide)
      have ho : outer c = false := Bool.eq_false_iff.2 fun ho => hv128 (hv.2 rfl ho)
      rw [if_pos hs, hnone]
      exact short_stubbed i tss eflags c hsel hpush ho
    · rw [if_neg hs]
      refine entered_stubbed i tss eflags c hsel htrap (hcode.trans ?_)
      cases soft with
      | false => exact Bool.and_true _
      | true =>
        rw [Bool.true_and, Bool.not_eq_true] at hs
        rw [hs]
        rfl

/-! ### A kernel and a program

The routines of the exceptions are at `0x1000`, those of the lines at `0x2000`; the program is in user
mode. -/

def smallImage : Image where
  isr n := BitVec.ofNat 32 (0x1000 + 16 * n)
  irq k := BitVec.ofNat 32 (0x2000 + 16 * k)
  isrHandler := 0x100
  irqHandler := 0x200
  isrBack := 0x3000
  irqBack := 0x3100
  code a :=
    if a.toNat < 0x2000 then isrStub ((a.toNat - 0x1000) / 16) ++ commonStub 0x100 0x3000
    else
      irqStub ((a.toNat - 0x2000) / 16) (32 + (a.toNat - 0x2000) / 16) ++ commonStub 0x200 0x3100
  code_isr n hn := by
    have h : (BitVec.ofNat 32 (0x1000 + 16 * n)).toNat = 0x1000 + 16 * n := by
      rw [BitVec.toNat_ofNat]
      omega
    rw [h, if_pos (by omega), show (0x1000 + 16 * n - 0x1000) / 16 = n by omega]
  code_irq k hk := by
    have h : (BitVec.ofNat 32 (0x2000 + 16 * k)).toNat = 0x2000 + 16 * k := by
      rw [BitVec.toNat_ofNat]
      omega
    rw [h, if_neg (by omega), show (0x2000 + 16 * k - 0x2000) / 16 = k by omega]

def kernelStack : InnerStack := ⟨0xC0008000, kernelDs⟩

/-- In front of `read(5, 0x7000, 64)`. -/
def readProgram : Cpu where
  gpr
    | .eax => 3
    | .ebx => 5
    | .ecx => 0x7000
    | .edx => 64
    | .esp => 0x9000
    | _ => 0
  eip := 0x400000
  mem := fun _ => 0
  seg q := if q = .cs then 0x1B else 0x23
  intr := true

theorem interrupt_enters_protection : (some (0 : Word)).isSome = pushesCode 13 ∧
    ((enter smallImage (idtInit smallImage.isr smallImage.irq 0 emptyIdt).2 kernelStack 13 false
        0x202 (some 0) readProgram).isSome = true ↔ Allowed 13 false readProgram) ∧
    ∀ c₁, enter smallImage (idtInit smallImage.isr smallImage.irq 0 emptyIdt).2 kernelStack 13 false
        0x202 (some 0) readProgram = some c₁ →
      Entered smallImage 13 0x202 (some 0) kernelStack readProgram c₁ :=
  ⟨rfl, interrupt_enters smallImage 0 kernelStack false 0x202 readProgram rfl⟩

/-! ## Going back -/

/-- The C function has returned from `c₁` in `c₂`, and left the frame `r`. -/
structure Returns (c₁ c₂ : Cpu) (r : PtRegs) : Prop where
  esp : c₂.gpr .esp = c₁.gpr .esp + 4
  cs : c₂.seg .cs = c₁.seg .cs
  frame : ptRegsAt c₂.mem (c₁.gpr .esp + 8) = r

/-- Where the kernel goes on from the frame `r` and the memory `m`, interrupted in `c`. -/
def after (c : Cpu) (m : Memory) (r : PtRegs) : Cpu where
  gpr
    | .eax => r.eax
    | .ecx => r.ecx
    | .edx => r.edx
    | .ebx => r.ebx
    | .esp => c.gpr .esp
    | .ebp => r.ebp
    | .esi => r.esi
    | .edi => r.edi
  eip := r.eip
  mem := m
  seg q := if q = .cs then r.cs else r.ds
  intr := r.eflags.getLsbD 9

/-- The rest of the stub is `forkret_s` on the frame. -/
theorem commonReturn_eq {c c₁ c₂ : Cpu} {r : PtRegs} (he : Entered i v eflags code tss c c₁)
    (hr : Returns c₁ c₂ r) : ∃ k : Cpu, k.mem = c₂.mem ∧ k.gpr .esp = c₁.gpr .esp + 8 ∧
      k.seg .cs = kernelCs ∧ ptRegsAt k.mem (k.gpr .esp) = r ∧
      runTrap Gdt.kernelSegments c₂ commonReturn = runTrap Gdt.kernelSegments k forkretS := by
  have hsp : c₂.gpr .esp + 4 = c₁.gpr .esp + 8 := by
    rw [hr.esp]
    bv_omega
  refine ⟨{ c₂ with toState := c₂.toState.set .esp (c₂.gpr .esp + 4) }, rfl, hsp, ?_, ?_, ?_⟩
  · show c₂.seg .cs = _
    rw [hr.cs, he.seg]
    rfl
  · show ptRegsAt c₂.mem (c₂.gpr .esp + 4) = r
    rw [hsp]
    exact hr.frame
  · rw [commonReturn, runTrap_cons, execTrap, Option.bind_some]

/-- **The kernel goes on** from what the handler leaves in the `pt_regs_t`. -/
theorem interrupt_resumes {c c₁ c₂ : Cpu} {r : PtRegs} (he : Entered i v eflags code tss c c₁)
    (hr : Returns c₁ c₂ r) (hc : c.seg .cs = kernelCs) (hcs : r.cs = kernelCs)
    (hds : r.ds = kernelDs) :
    runTrap Gdt.kernelSegments c₂ commonReturn = some (after c c₂.mem r) := by
  obtain ⟨k, hmem, hsp, hk, hframe, heq⟩ := commonReturn_eq he hr
  have ho : outer c = false := by
    unfold outer
    rw [hc]
    rfl
  rw [heq, runTrap_forkretS hframe hk hcs hds, hsp, he.esp, ho, hmem]
  refine congrArg some (Cpu.ext (funext fun q => ?_) rfl rfl rfl rfl)
  cases q with
  | esp =>
    show stackTop tss c - 64 + 8 + 56 = c.gpr .esp
    rw [stackTop, ho]
    show c.gpr .esp - 64 + 8 + 56 = c.gpr .esp
    bv_omega
  | _ => rfl

/-- **Nobody else goes on**: a frame with another `ds`, as that of every program in user mode, ends in
a general protection fault, because the stub loads it into `ss`. -/
theorem interrupt_faults {c c₁ c₂ : Cpu} {r : PtRegs} (he : Entered i v eflags code tss c c₁)
    (hr : Returns c₁ c₂ r) (hds : r.ds ≠ kernelDs) :
    runTrap Gdt.kernelSegments c₂ commonReturn = none := by
  obtain ⟨k, -, -, hk, hframe, heq⟩ := commonReturn_eq he hr
  have hcpl : rpl (k.seg .cs) = 0 := by rw [hk]; rfl
  rw [heq, runTrap_unwind hframe, hcpl, if_neg]
  exact fun h => hds ((Gdt.loads_ss_iff _).1 h.2)

/-- A return to an outer level takes the kernel's selectors away. -/
theorem iret_outer {t : Segments} {k k' : Cpu} (h : iret t k = some k')
    (ho : rpl (k.seg .cs) < rpl (stackSeg k 4)) :
    k'.seg .ds = t.keep (rpl (stackSeg k 4)) (k.seg .ds) := by
  unfold iret at h
  dsimp only at h
  split at h
  · obtain rfl := Option.some.inj h
    rfl
  · cases h

/-- What goes on with its own selectors is the kernel. -/
theorem kernel_of_resumes {c c₁ c₂ c' : Cpu} {r : PtRegs} (he : Entered i v eflags code tss c c₁)
    (hr : Returns c₁ c₂ r) (hcs : r.cs = c.seg .cs)
    (h : runTrap Gdt.kernelSegments c₂ commonReturn = some c') (hds : c'.seg .ds = r.ds) :
    c.seg .cs = kernelCs ∧ r.ds = kernelDs := by
  have hkernel : r.ds = kernelDs := by
    by_contra hc
    rw [interrupt_faults he hr hc] at h
    cases h
  refine ⟨?_, hkernel⟩
  obtain ⟨k, -, -, hk, hframe, heq⟩ := commonReturn_eq he hr
  have hcpl : rpl (k.seg .cs) = 0 := by rw [hk]; rfl
  rw [heq, runTrap_unwind hframe, hcpl, hkernel, if_pos (by decide)] at h
  have hstack := (stackSeg_unwound hframe).1
  have hcpl' : rpl ((unwound k r).seg .cs) = 0 := hcpl
  rw [← hcs]
  by_cases h0 : rpl r.cs = 0
  · unfold iret at h
    dsimp only at h
    split at h
    · next hret =>
      rw [hcpl', hstack] at hret
      exact Gdt.eq_of_returns hret h0
    · cases h
  · have hlt : rpl ((unwound k r).seg .cs) < rpl (stackSeg (unwound k r) 4) := by
      rw [hcpl', hstack]
      exact Nat.pos_of_ne_zero h0
    have hkeep := iret_outer h hlt
    rw [hds, hstack, hkernel, show (unwound k r).seg .ds = kernelDs from hkernel] at hkeep
    have hnull : Gdt.kernelSegments.keep (rpl r.cs) kernelDs = 0 := by
      have hany : (Gdt.kernelSegments kernelDs).any (fun d => decide (d.dpl < rpl r.cs)) = true :=
        decide_eq_true (Nat.pos_of_ne_zero h0)
      rw [Segments.keep, if_pos hany]
    rw [hnull] at hkeep
    exact absurd hkeep (by decide)

/-- **Who does not notice an interrupt**: when the handler leaves the frame alone, the program goes on
as if nothing had happened but for memory, exactly if it is the kernel, with its own selector in all
segment registers for data. A program with another `ds` never goes on. -/
theorem interrupt_transparent_iff {soft : Bool} {c₁ c₂ : Cpu}
    (hcode : code.isSome = (pushesCode v && !soft)) (hshort : (soft && pushesCode v) = false)
    (hintr : eflags.getLsbD 9 = c.intr)
    (h : enter i (idtInit i.isr i.irq table emptyIdt).2 tss v soft eflags code c = some c₁)
    (hr : Returns c₁ c₂ (ptRegsAt c₁.mem (c₁.gpr .esp + 8))) :
    (runTrap Gdt.kernelSegments c₂ commonReturn = some { c with mem := c₂.mem } ↔
      ∀ q, c.seg q = if q = .cs then kernelCs else kernelDs) ∧
    (c.seg .ds ≠ kernelDs → runTrap Gdt.kernelSegments c₂ commonReturn = none) := by
  have he := (interrupt_enters i table tss soft eflags c hcode).2 c₁ h
  rw [hshort, if_neg (by decide)] at he
  have hs := he.saved
  set r := ptRegsAt c₁.mem (c₁.gpr .esp + 8)
  refine ⟨⟨fun heq => ?_, fun hseg => ?_⟩, fun hds => interrupt_faults he hr (hs.ds ▸ hds)⟩
  · obtain ⟨hcs, hds⟩ := kernel_of_resumes he hr hs.cs heq hs.ds.symm
    rw [interrupt_resumes he hr hcs (hs.cs.trans hcs) hds, Option.some.injEq] at heq
    intro q
    have hq : (if q = .cs then r.cs else r.ds) = c.seg q := congrFun (congrArg Cpu.seg heq) q
    rw [← hq, hds, hs.cs, hcs]
  · have hcs : c.seg .cs = kernelCs := hseg .cs
    have hds : c.seg .ds = kernelDs := hseg .ds
    rw [interrupt_resumes he hr hcs (hs.cs.trans hcs) (hs.ds.trans hds)]
    refine congrArg some (Cpu.ext (funext fun q => ?_) hs.eip rfl (funext fun q => ?_) ?_)
    · cases q with
      | eax => exact hs.eax
      | ecx => exact hs.ecx
      | edx => exact hs.edx
      | ebx => exact hs.ebx
      | esp => rfl
      | ebp => exact hs.ebp
      | esi => exact hs.esi
      | edi => exact hs.edi
    · show (if q = .cs then r.cs else r.ds) = c.seg q
      rw [hseg q, hs.cs, hs.ds, hcs, hds]
    · show r.eflags.getLsbD 9 = c.intr
      rw [hs.eflags, hintr]

/-- A handler that changes nothing. -/
def Cpu.justReturn (c : Cpu) : Cpu := { c with toState := c.toState.set .esp (c.gpr .esp + 4) }

/-- In the kernel's idle loop. -/
def idleProgram : Cpu :=
  { readProgram with
    eip := 0xC0100000
    seg := fun q => if q = .cs then kernelCs else kernelDs }

/-- The timer interrupts the idle loop, which goes on, and a program, which does not. -/
theorem interrupt_transparent_timer :
    (∃ c₁, enter smallImage (idtInit smallImage.isr smallImage.irq 0 emptyIdt).2 kernelStack 32 false
        0x202 none idleProgram = some c₁ ∧
      runTrap Gdt.kernelSegments (Cpu.justReturn c₁) commonReturn =
        some { idleProgram with mem := c₁.mem }) ∧
    ∃ c₁, enter smallImage (idtInit smallImage.isr smallImage.irq 0 emptyIdt).2 kernelStack 32 false
        0x202 none readProgram = some c₁ ∧
      runTrap Gdt.kernelSegments (Cpu.justReturn c₁) commonReturn = none := by
  have hcode : (none : Option Word).isSome = pushesCode 32 := rfl
  constructor
  · have hv : Allowed 32 false idleProgram := ⟨.inl (by decide), by decide⟩
    obtain ⟨c₁, h, -⟩ := enter_of_allowed smallImage 0 kernelStack 0x202 hv hcode
    have hr : Returns c₁ (Cpu.justReturn c₁) (ptRegsAt c₁.mem (c₁.gpr .esp + 8)) := ⟨rfl, rfl, rfl⟩
    exact ⟨c₁, h, (interrupt_transparent_iff rfl rfl rfl h hr).1.2 fun q => rfl⟩
  · have hv : Allowed 32 false readProgram := ⟨.inl (by decide), by decide⟩
    obtain ⟨c₁, h, -⟩ := enter_of_allowed smallImage 0 kernelStack 0x202 hv hcode
    have hr : Returns c₁ (Cpu.justReturn c₁) (ptRegsAt c₁.mem (c₁.gpr .esp + 8)) := ⟨rfl, rfl, rfl⟩
    exact ⟨c₁, h, (interrupt_transparent_iff rfl rfl rfl h hr).2 (by decide)⟩

end Hurlex.Intr
