import Hurlex.Lib.Pic
import Hurlex.Kernel.Intr

/-!
# The interrupt controllers (`arch/i386/driver/pic.c`)

`init_interrupt_chip`, and what `irq_handler` does to the chips through `clear_interrupt_chip`, on two
chips in any state the machine was switched on with.

* **`irq_lines_ready`**: in every run the chips hand out line `k` as vector `32 + k`, whose gate leads
  to `irqk`, and after `irq_handler` all lines are as free as at the start, a request that had gone
  away included.

The chips are told of the end of an interrupt before its handler is called, so that it does not matter
what the handler does and whether it comes back. No driver writes to their ports.
-/

namespace Hurlex.Intr

open Lib.Machine Lib.Pic Hurlex.Task

/-- `IO_PIC1`, `IO_PIC1C`, `IO_PIC2` and `IO_PIC2C`. -/
def ioPic1 : BitVec 16 := 0x20

def ioPic1C : BitVec 16 := ioPic1 + 1

def ioPic2 : BitVec 16 := 0xA0

def ioPic2C : BitVec 16 := ioPic2 + 1

def initInterruptChip : List Action :=
  [.outb ioPic1 0x11, .outb ioPic2 0x11,
   .outb ioPic1C 0x20,
   .outb ioPic2C 0x28,
   .outb ioPic1C 0x04,
   .outb ioPic2C 0x02,
   .outb ioPic1C 0x01, .outb ioPic2C 0x01,
   .outb ioPic1C 0x0, .outb ioPic2C 0x0]

/-- The chips after what has been written to ports. -/
def ports (as : List Action) (p : Pair) : Pair :=
  as.foldl (fun p a => match a with
    | .outb port v => p.outb port v
    | _ => p) p

/-- The chips after interrupts of some lines, the last one first. A frame tells `irq_handler` the
vector. -/
inductive IrqRun (t : Handlers) (start : Pair) : List Nat → Pair → Prop
  | nil : IrqRun t start [] start
  | cons {ks : List Nat} {p p' : Pair} {k v : Nat} {regs : PtRegs} (hs : IrqRun t start ks p)
      (hk : p.Hands k v p') (hv : regs.intNo = BitVec.ofNat 32 v) :
      IrqRun t start (k :: ks) (ports (irqHandler t regs) p')

/-- Both chips as `init_interrupt_chip` leaves them. -/
def readyChip (base cascade : BitVec 8) : Chip := ⟨.mask, base, cascade, true, 0, ∅⟩

def readyPair : Pair := ⟨readyChip 0x20 0x04, readyChip 0x28 0x02⟩

theorem ports_append (as bs : List Action) (p : Pair) :
    ports (as ++ bs) p = ports bs (ports as p) := List.foldl_append

/-- Whatever the chips were doing before. -/
theorem ports_init (p : Pair) : ports initInterruptChip p = readyPair := by
  obtain ⟨m, s⟩ := p
  rfl

theorem ready_accepts {base cascade : BitVec 8} {k : Nat} (hk : k < 8) :
    (readyChip base cascade).Accepts k :=
  ⟨hk, BitVec.getLsbD_zero, fun _ hj => absurd hj (Finset.notMem_empty _)⟩

/-- What `irq_handler` writes. -/
theorem ports_irqHandler (t : Handlers) {regs : PtRegs} {v : Nat}
    (hv : regs.intNo = BitVec.ofNat 32 v) (hlt : v < 48) (p : Pair) :
    ports (irqHandler t regs) p =
      ⟨p.master.command 0x20, if 40 ≤ v then p.slave.command 0x20 else p.slave⟩ := by
  have hno : regs.intNo.toNat = v := by
    rw [hv, BitVec.toNat_ofNat]
    exact Nat.mod_eq_of_lt (by omega)
  have hcall : ∀ p, ports (if t regs.intNo.toNat ≠ 0 then [.call (t regs.intNo.toNat)] else []) p =
      p := by
    intro p
    split <;> rfl
  unfold irqHandler clearInterruptChip
  rw [ports_append, hcall, ports_append, hno]
  by_cases h40 : 40 ≤ v
  · rw [if_pos h40, if_pos h40]
    rfl
  · rw [if_neg h40, if_neg h40]
    rfl

/-- Only line 2 of the master has a chip on it. -/
theorem ready_cascade {n : Nat} (h : (readyChip 0x20 0x04).cascade.getLsbD n = true) (hn : n < 8) :
    n = 2 := by
  have h2 : ∀ n < 8, (0x04 : BitVec 8).getLsbD n = true → n = 2 := by decide
  exact h2 n hn h

/-- An interrupt of a ready pair comes with the vector of its line, and its end leaves the pair ready. -/
theorem ready_hands {t : Handlers} {p' : Pair} {k v : Nat} (h : readyPair.Hands k v p') :
    v = 32 + k ∧ k < 16 ∧
      ∀ regs : PtRegs, regs.intNo = BitVec.ofNat 32 v → ports (irqHandler t regs) p' = readyPair := by
  cases h with
  | master hk h2 =>
    have hlt := hk.1
    refine ⟨rfl, by omega, fun regs hv => ?_⟩
    rw [ports_irqHandler t hv (by show 32 + k < 48; omega), if_neg (by show ¬ 40 ≤ 32 + k; omega)]
    exact congrArg (Pair.mk · _) (end_serve hk)
  | @slave k n hk hn h2 hid =>
    have hlt := hk.1
    refine ⟨by show 40 + k = 32 + (8 + k); omega, by omega, fun regs hv => ?_⟩
    rw [ports_irqHandler t hv (by show 40 + k < 48; omega), if_pos (by show 40 ≤ 40 + k; omega)]
    exact congrArg₂ Pair.mk (end_serve hn) (end_serve hk)
  | noMaster =>
    refine ⟨rfl, by omega, fun regs hv => ?_⟩
    rw [ports_irqHandler t hv (by decide), if_neg (by decide)]
    exact congrArg (Pair.mk · _) (end_idle rfl)
  | noSlave hn h2 hid =>
    refine ⟨rfl, by omega, fun regs hv => ?_⟩
    rw [ports_irqHandler t hv (by decide), if_pos (by decide)]
    exact congrArg₂ Pair.mk (end_serve hn) (end_idle rfl)

theorem IrqRun.ready {t : Handlers} {ks : List Nat} {p : Pair} (h : IrqRun t readyPair ks p) :
    p = readyPair := by
  induction h with
  | nil => rfl
  | cons _ hk hv ih =>
    subst ih
    exact (ready_hands hk).2.2 _ hv

/-- **Interrupt lines never get stuck.** From `init_interrupt_chip` on, whatever interrupts there have
been: the next one comes with the vector of its line, whose gate leads to the line's routine, and
every line but the one of the cascade can be the next. -/
theorem irq_lines_ready {t : Handlers} {p₀ p : Pair} {ks : List Nat} (isr irq : Nat → Word)
    (h : IrqRun t (ports initInterruptChip p₀) ks p) :
    (∀ k v p', p.Hands k v p' → v = 32 + k ∧ isLine v = true ∧ isrIrqFunc isr irq v = irq k) ∧
      ∀ k < 16, k ≠ 2 → ∃ p', p.Hands k (32 + k) p' := by
  rw [ports_init] at h
  rw [h.ready]
  refine ⟨fun k v p' hk => ?_, fun k hk h2 => ?_⟩
  · obtain ⟨rfl, hlt, -⟩ := ready_hands (t := t) hk
    refine ⟨rfl, by simp [isLine]; omega, ?_⟩
    rw [isrIrqFunc, if_neg (by omega), if_pos (by omega), Nat.add_sub_cancel_left]
  · by_cases h8 : k < 8
    · refine ⟨_, .master (ready_accepts h8) (Bool.eq_false_iff.2 fun hc => ?_)⟩
      exact h2 (ready_cascade hc h8)
    · obtain ⟨j, rfl⟩ := Nat.exists_eq_add_of_le (Nat.not_lt.1 h8)
      have hslave := Pair.Hands.slave (p := readyPair) (k := j) (n := 2)
        (ready_accepts (by omega)) (ready_accepts (by decide)) rfl rfl
      have hv : readyPair.slave.vector j = 32 + (8 + j) := by
        show 40 + j = _
        omega
      rw [hv] at hslave
      exact ⟨_, hslave⟩

/-- After a tick of the timer. -/
theorem irq_lines_ready_timer : ∃ p, IrqRun (fun _ => 0) (ports initInterruptChip readyPair) [0] p ∧
    (∀ k v p', p.Hands k v p' → v = 32 + k ∧ isLine v = true ∧
      isrIrqFunc (fun _ => 1) (fun _ => 2) v = 2) ∧
    ∀ k < 16, k ≠ 2 → ∃ p', p.Hands k (32 + k) p' := by
  have hk : readyPair.Hands 0 32 { readyPair with master := readyPair.master.serve 0 } :=
    .master (ready_accepts (by decide)) rfl
  have hno : ({ PtRegs.zero with intNo := 32 } : PtRegs).intNo = BitVec.ofNat 32 32 := rfl
  have hrun : IrqRun (fun _ => 0) (ports initInterruptChip readyPair) [0] _ :=
    .cons .nil (ports_init readyPair ▸ hk) hno
  exact ⟨_, hrun, irq_lines_ready (fun _ => 1) (fun _ => 2) hrun⟩

end Hurlex.Intr
