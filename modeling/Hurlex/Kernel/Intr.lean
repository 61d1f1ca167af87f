import Hurlex.Lib.Interrupt
import Hurlex.Task.Kthread

/-!
# Interrupts (`arch/i386/intr/intr.c`, `intr_s.s`)

The interrupt descriptor table as `idt_init` leaves it, the routines its gates lead to, and the two C
functions those call. What a handler writes to a port or calls is kept as a list of actions.

* **`decode_idtSetGate`**: a gate reads back as what it was made from, if its flags are those of a
  32-bit gate.
* **`idtInit_gate`**: exactly the vectors 0 to 47 and 128 have a gate after `idt_init`. Only 128 is
  open to programs.

Out of scope: loading the register, and the programs behind the handlers' addresses.
-/

namespace Hurlex.Intr

open Lib.Machine Hurlex.Task

/-! ## The table -/

/-- `INTERRUPT_MAX`. -/
def interruptMax : Nat := 256

/-- `idt_entry_t`. -/
structure IdtEntry where
  baseLo : BitVec 16
  sel : BitVec 16
  always0 : BitVec 8
  flags : BitVec 8
  baseHi : BitVec 16
  deriving DecidableEq

/-- `idt_ptr_t`. -/
structure IdtPtr where
  limit : BitVec 16
  base : Word
  deriving DecidableEq

/-- `idt_entries`. -/
abbrev Idt := Nat → IdtEntry

/-- What is not initialised is zero. -/
def emptyIdt : Idt := fun _ => ⟨0, 0, 0, 0, 0⟩

/-- The eight bytes of an entry, the first one lowest. -/
def IdtEntry.word (e : IdtEntry) : BitVec 64 := e.baseHi ++ e.flags ++ e.always0 ++ e.sel ++ e.baseLo

def idtSetGate (t : Idt) (num : BitVec 8) (base : Word) (sel : Half) (flags : BitVec 8) : Idt :=
  fun i =>
    if i = num.toNat then
      { baseLo := (base &&& 0xFFFF).setWidth 16
        baseHi := ((base >>> 16) &&& 0xFFFF).setWidth 16
        sel := sel
        always0 := 0
        flags := flags }
    else t i

section Symbols

/- Where the linker puts `isr0` to `isr31` and `isr128`, and `irq0` to `irq15`. -/
variable (isr irq : Nat → Word)

/-- `isr_irq_func`. -/
def isrIrqFunc (i : Nat) : Word :=
  if i < 32 then isr i else if i < 48 then irq (i - 32) else 0

/-- `idt_init` between `init_interrupt_chip` and the loading of the register, with `idt_entries` at
`table`. -/
def idtInit (table : Word) (t : Idt) : IdtPtr × Idt :=
  let idtPtr : IdtPtr := ⟨BitVec.ofNat 16 (8 * interruptMax - 1), table⟩
  let t := (List.range 48).foldl
    (fun t i => idtSetGate t (BitVec.ofNat 8 i) (isrIrqFunc isr irq i) 0x08 0x8E) t
  (idtPtr, idtSetGate t 128 (isr 128) 0x08 0xEF)

end Symbols

/-! ## The routines behind the gates -/

/-- `ISR_NOERRCODE` -/
def isrNoErrCode (n : Nat) : List EntryInstr := [.pushImm 0, .pushImm (BitVec.ofNat 32 n)]

/-- `ISR_ERRCODE` -/
def isrErrCode (n : Nat) : List EntryInstr := [.pushImm (BitVec.ofNat 32 n)]

/-- `isr0` to `isr31` and `isr128`, each by the macro it is defined with. -/
def isrStub (n : Nat) : List EntryInstr :=
  match n with
  | 8 | 10 | 11 | 12 | 13 | 14 | 17 => isrErrCode n
  | _ => isrNoErrCode n

/-- `IRQ`: a line and its vector. -/
def irqStub (_line vector : Nat) : List EntryInstr :=
  [.pushImm 0, .pushImm (BitVec.ofNat 32 vector)]

/-- The common part of the routines up to the call of `handler`, which returns to `back`. -/
def commonStub (handler back : Word) : List EntryInstr :=
  [.pusha,
   .movFromSeg .eax .ds,
   .trap (.plain (.push .eax)),
   .movLow .eax 0x10,
   .trap (.movSeg .ds .eax),
   .trap (.movSeg .es .eax),
   .trap (.movSeg .fs .eax),
   .trap (.movSeg .gs .eax),
   .trap (.movSeg .ss .eax),
   .trap (.plain (.push .esp)),
   .call handler back]

/-- What is left of `isr_common_stub` and `irq_common_stub` after the call. -/
def commonReturn : List TrapInstr := .add .esp 4 :: forkretS

/-- The vectors `idt_init` makes a gate for. -/
def Served (v : Nat) : Prop := v < 48 ∨ v = 128

instance (v : Nat) : Decidable (Served v) := inferInstanceAs (Decidable (_ ∨ _))

/-- The vectors of the interrupt lines. -/
def isLine (v : Nat) : Bool := 32 ≤ v && v < 48

/-- The kernel in memory: the addresses the linker chose, and the code that is there. -/
structure Image where
  isr : Nat → Word
  irq : Nat → Word
  isrHandler : Word
  irqHandler : Word
  /-- behind the calls in `isr_common_stub` and `irq_common_stub` -/
  isrBack : Word
  irqBack : Word
  code : Word → List EntryInstr
  code_isr : ∀ n, n < 32 ∨ n = 128 → code (isr n) = isrStub n ++ commonStub isrHandler isrBack
  code_irq : ∀ k < 16, code (irq k) = irqStub k (32 + k) ++ commonStub irqHandler irqBack

/-- The C function a vector ends in. -/
def Image.handler (i : Image) (v : Nat) : Word := if isLine v then i.irqHandler else i.isrHandler

def Image.back (i : Image) (v : Nat) : Word := if isLine v then i.irqBack else i.isrBack

/-! ## The C functions -/

/-- What an interrupt's handler does besides changing memory. -/
inductive Action where
  | outb (port : BitVec 16) (value : BitVec 8)
  | call (handler : Word)
  /-- `"Unhandled interrupt: %d %s\n"` -/
  | unhandled (no : Word) (name : String)
  | hlt
  deriving DecidableEq, Repr

/-- `interrupt_handlers`. -/
abbrev Handlers := Nat → Word

def registerInterruptHandler (t : Handlers) (n : BitVec 8) (h : Word) : Handlers :=
  fun i => if i = n.toNat then h else t i

def intrnames : List String :=
  ["Divide error", "Debug", "Non-Maskable Interrupt", "Breakpoint", "Overflow",
   "BOUND Range Exceeded", "Invalid Opcode", "Device Not Available", "Double Fault",
   "Coprocessor Segment Overrun", "Invalid TSS", "Segment Not Present", "Stack Fault",
   "General Protection", "Page Fault", "(unknown trap)", "x87 FPU Floating-Point Error",
   "Alignment Check", "Machine-Check", "SIMD Floating-Point Exception"]

def intrname (intrno : Word) : String := intrnames.getD intrno.toNat "(unknown trap)"

def isrHandler (t : Handlers) (regs : PtRegs) : List Action :=
  if t regs.intNo.toNat ≠ 0 then [.call (t regs.intNo.toNat)]
  else [.unhandled regs.intNo (intrname regs.intNo), .hlt]

/-- `clear_interrupt_chip` -/
def clearInterruptChip (intrNo : Word) : List Action :=
  (if 40 ≤ intrNo.toNat then [.outb 0xA0 0x20] else []) ++ [.outb 0x20 0x20]

def irqHandler (t : Handlers) (regs : PtRegs) : List Action :=
  clearInterruptChip regs.intNo ++
    if t regs.intNo.toNat ≠ 0 then [.call (t regs.intNo.toNat)] else []

/-- The C function behind a vector. -/
def handle (t : Handlers) (v : Nat) (regs : PtRegs) : List Action :=
  if isLine v then irqHandler t regs else isrHandler t regs

/-! ## What the processor makes of the table -/

variable {t : Idt} {base : Word} {sel : Half} {flags : BitVec 8} {num : BitVec 8} {v : Nat}

theorem idtSetGate_self : idtSetGate t num base sel flags num.toNat =
    ⟨(base &&& 0xFFFF).setWidth 16, sel, 0, flags, ((base >>> 16) &&& 0xFFFF).setWidth 16⟩ :=
  if_pos rfl

theorem idtSetGate_of_ne (h : v ≠ num.toNat) : idtSetGate t num base sel flags v = t v := if_neg h

theorem word_bit {e : IdtEntry} {k : Nat} (hk : k < 8) :
    e.word.getLsbD (40 + k) = e.flags.getLsbD k := by
  simp only [IdtEntry.word, BitVec.getLsbD_append]
  have h1 : ¬ 40 + k < 16 := by omega
  have h2 : ¬ 40 + k - 16 < 16 := by omega
  have h3 : ¬ 40 + k - 16 - 16 < 8 := by omega
  have h4 : 40 + k - 16 - 16 - 8 < 8 := by omega
  simp only [h1, h2, h3, h4, if_false, if_true]
  congr 1
  omega

theorem word_flags {e : IdtEntry} {k n : Nat} (hn : k + n ≤ 8) :
    e.word.extractLsb' (40 + k) n = e.flags.extractLsb' k n := by
  refine BitVec.eq_of_getLsbD_eq fun i hi => ?_
  rw [BitVec.getLsbD_extractLsb', BitVec.getLsbD_extractLsb', Nat.add_assoc, word_bit (by omega)]

theorem word_sel (e : IdtEntry) : e.word.extractLsb' 16 16 = e.sel := by
  refine BitVec.eq_of_getLsbD_eq fun i hi => ?_
  have h1 : ¬ 16 + i < 16 := by omega
  have h2 : 16 + i - 16 = i := by omega
  simp only [IdtEntry.word, BitVec.getLsbD_append, BitVec.getLsbD_extractLsb', h1, h2, hi, if_true,
    if_false, decide_true, Bool.true_and]

theorem word_baseLo (e : IdtEntry) : e.word.extractLsb' 0 16 = e.baseLo := by
  refine BitVec.eq_of_getLsbD_eq fun i hi => ?_
  simp only [IdtEntry.word, BitVec.getLsbD_append, BitVec.getLsbD_extractLsb', Nat.zero_add, hi,
    if_true, decide_true, Bool.true_and]

theorem word_baseHi (e : IdtEntry) : e.word.extractLsb' 48 16 = e.baseHi := by
  refine BitVec.eq_of_getLsbD_eq fun i hi => ?_
  have h1 : ¬ 48 + i < 16 := by omega
  have h2 : ¬ 48 + i - 16 < 16 := by omega
  have h3 : ¬ 48 + i - 16 - 16 < 8 := by omega
  have h4 : ¬ 48 + i - 16 - 16 - 8 < 8 := by omega
  have h5 : 48 + i - 16 - 16 - 8 - 8 = i := by omega
  simp only [IdtEntry.word, BitVec.getLsbD_append, BitVec.getLsbD_extractLsb', h1, h2, h3, h4, h5,
    hi, if_false, decide_true, Bool.true_and]

/-- The two pieces of an address. -/
theorem base_pieces (base : Word) : (((base >>> 16) &&& 0xFFFF).setWidth 16 : BitVec 16) ++
    ((base &&& 0xFFFF).setWidth 16 : BitVec 16) = base := by
  refine BitVec.eq_of_toNat_eq ?_
  simp only [BitVec.toNat_append, BitVec.toNat_setWidth, BitVec.toNat_and, BitVec.toNat_ushiftRight]
  have h := base.isLt
  rw [show (0xFFFF : Word).toNat = 2 ^ 16 - 1 from rfl, Nat.and_two_pow_sub_one_eq_mod,
    Nat.and_two_pow_sub_one_eq_mod, Nat.mod_mod, Nat.mod_mod, Nat.shiftRight_eq_div_pow,
    ← Nat.shiftLeft_add_eq_or_of_lt (Nat.mod_lt _ (by decide)), Nat.shiftLeft_eq]
  omega

/-- **A gate reads back** as its address, its selector and its level, if the flags say that it is a
32-bit gate and present. -/
theorem decode_idtSetGate (t : Idt) (num : BitVec 8) (base : Word) (sel : Half)
    (flags : BitVec 8) : decodeGate (idtSetGate t num base sel flags num.toNat).word =
    if flags.getLsbD 7 && !flags.getLsbD 4 && flags.extractLsb' 1 3 == (7 : BitVec 3) then
      some ⟨base, sel, flags.extractLsb' 5 2, flags.getLsbD 0⟩
    else none := by
  rw [idtSetGate_self]
  set e : IdtEntry :=
    ⟨(base &&& 0xFFFF).setWidth 16, sel, 0, flags, ((base >>> 16) &&& 0xFFFF).setWidth 16⟩ with he
  have h7 : e.word.getLsbD 47 = flags.getLsbD 7 := word_bit (k := 7) (by decide)
  have h4 : e.word.getLsbD 44 = flags.getLsbD 4 := word_bit (k := 4) (by decide)
  have h0 : e.word.getLsbD 40 = flags.getLsbD 0 := word_bit (k := 0) (by decide)
  have h1 : e.word.extractLsb' 41 3 = flags.extractLsb' 1 3 := word_flags (k := 1) (by decide)
  have h5 : e.word.extractLsb' 45 2 = flags.extractLsb' 5 2 := word_flags (k := 5) (by decide)
  have hbase : e.word.extractLsb' 48 16 ++ e.word.extractLsb' 0 16 = base := by
    rw [word_baseHi, word_baseLo]
    exact base_pieces base
  unfold decodeGate
  rw [h7, h4, h0, h1, h5, hbase, word_sel]

theorem decode_emptyIdt (v : Nat) : decodeGate (emptyIdt v).word = none := by
  show decodeGate (IdtEntry.word ⟨0, 0, 0, 0, 0⟩) = none
  decide

variable {isr irq : Nat → Word} {table : Word}

/-- The loop of `idt_init`, after `n` gates. -/
theorem idtInit_loop {n : Nat} (hn : n ≤ 48) (v : Nat) :
    decodeGate ((List.range n).foldl (fun t i =>
      idtSetGate t (BitVec.ofNat 8 i) (isrIrqFunc isr irq i) 0x08 0x8E) emptyIdt v).word =
    if v < n then some ⟨isrIrqFunc isr irq v, 8, 0, false⟩ else none := by
  induction n with
  | zero => exact decode_emptyIdt v
  | succ n ih =>
    rw [List.range_succ, List.foldl_append, List.foldl_cons, List.foldl_nil]
    have hnum : (BitVec.ofNat 8 n).toNat = n := by
      rw [BitVec.toNat_ofNat]
      exact Nat.mod_eq_of_lt (by omega)
    by_cases hv : v = n
    · subst hv
      rw [if_pos (Nat.lt_succ_self v)]
      have h := decode_idtSetGate ((List.range v).foldl (fun t i =>
        idtSetGate t (BitVec.ofNat 8 i) (isrIrqFunc isr irq i) 0x08 0x8E) emptyIdt)
        (BitVec.ofNat 8 v) (isrIrqFunc isr irq v) 8 0x8E
      rw [hnum] at h
      exact h.trans (if_pos (by decide))
    · rw [idtSetGate_of_ne (by rw [hnum]; exact hv), ih (by omega)]
      have : v < n ↔ v < n + 1 := by omega
      simp only [this]

/-- **The gates after `idt_init`**: those of the exceptions and of the interrupt lines are interrupt
gates of level 0, that of system calls is a trap gate of level 3, and no other vector has one. -/
theorem idtInit_gate (v : Nat) :
    decodeGate ((idtInit isr irq table emptyIdt).2 v).word =
      if v < 48 then some ⟨isrIrqFunc isr irq v, 8, 0, false⟩
      else if v = 128 then some ⟨isr 128, 8, 3, true⟩
      else none := by
  unfold idtInit
  by_cases hv : v = 128
  · subst hv
    rw [if_neg (by decide), if_pos rfl]
    have h := decode_idtSetGate ((List.range 48).foldl (fun t i =>
      idtSetGate t (BitVec.ofNat 8 i) (isrIrqFunc isr irq i) 0x08 0x8E) emptyIdt) 128 (isr 128) 8 0xEF
    exact h.trans (if_pos (by decide))
  · rw [if_neg hv]
    have hne : v ≠ (128 : BitVec 8).toNat := hv
    show decodeGate (idtSetGate _ 128 _ _ _ v).word = _
    rw [idtSetGate_of_ne hne, idtInit_loop (le_refl 48) v]

end Hurlex.Intr
