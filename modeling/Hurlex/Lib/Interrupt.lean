import Hurlex.Lib.Trap

/-!
# The way into an interrupt

Gates, what the processor pushes before it jumps through one, and the instructions a handler enters
with. All of it is pushes: `pushWords` says what is on the stack afterwards.
-/

namespace Hurlex.Lib.Machine

/-! ## Pushing -/

def pushWord (s : State) (w : Word) : State :=
  { s.set .esp (s.gpr .esp - 4) with mem := write32 s.mem (s.gpr .esp - 4) w }

/-- Words pushed one after the other, the first one highest. -/
def pushWords (s : State) (ws : List Word) : State := ws.foldl pushWord s

variable {s : State} {ws : List Word} {a x w : Word}

@[simp] theorem pushWord_esp (s : State) (w : Word) :
    (pushWord s w).gpr .esp = s.gpr .esp - 4 := rfl

theorem pushWord_gpr (s : State) (w : Word) {r : Reg} (hr : r ≠ .esp) :
    (pushWord s w).gpr r = s.gpr r := if_neg hr

theorem pushWords_cons (s : State) (w : Word) (ws : List Word) :
    pushWords s (w :: ws) = pushWords (pushWord s w) ws := rfl

theorem pushWords_append (s : State) (ws ws' : List Word) :
    pushWords s (ws ++ ws') = pushWords (pushWords s ws) ws' := List.foldl_append

theorem pushWords_gpr {r : Reg} (hr : r ≠ .esp) (ws : List Word) (s : State) :
    (pushWords s ws).gpr r = s.gpr r := by
  induction ws generalizing s with
  | nil => rfl
  | cons w ws ih => rw [pushWords_cons, ih, pushWord_gpr s w hr]

theorem pushWords_esp (ws : List Word) (s : State) :
    (pushWords s ws).gpr .esp = s.gpr .esp - BitVec.ofNat 32 (4 * ws.length) := by
  induction ws generalizing s with
  | nil => exact (BitVec.sub_zero _).symm
  | cons w ws ih =>
    rw [pushWords_cons, ih, pushWord_esp, List.length_cons]
    bv_omega

/-- Pushes write below the stack pointer only. -/
theorem pushWords_frame (ws : List Word) (s : State) (hn : 4 * ws.length ≤ 2 ^ 32)
    (hx : x ∉ bytesFrom (s.gpr .esp - BitVec.ofNat 32 (4 * ws.length)) (4 * ws.length)) :
    (pushWords s ws).mem x = s.mem x := by
  induction ws generalizing s with
  | nil => rfl
  | cons w ws ih =>
    rw [List.length_cons] at hn hx
    rw [pushWords_cons, ih _ (by omega)]
    · refine write32_of_notMem fun h => hx ?_
      have h : (x - (s.gpr .esp - 4)).toNat < 4 := h
      show (x - (s.gpr .esp - BitVec.ofNat 32 (4 * (ws.length + 1)))).toNat < _
      bv_omega
    · refine fun h => hx ?_
      have h : (x - ((pushWord s w).gpr .esp - BitVec.ofNat 32 (4 * ws.length))).toNat < _ := h
      rw [pushWord_esp] at h
      show (x - (s.gpr .esp - BitVec.ofNat 32 (4 * (ws.length + 1)))).toNat < _
      bv_omega

/-- The `i`-th word pushed. -/
theorem read32_pushWords (ws : List Word) (s : State) (hn : 4 * ws.length ≤ 2 ^ 32) {i : Nat}
    (hi : i < ws.length) :
    read32 (pushWords s ws).mem (s.gpr .esp - BitVec.ofNat 32 (4 * (i + 1))) = ws[i] := by
  induction ws generalizing s i with
  | nil => exact absurd hi (by simp)
  | cons w ws ih =>
    rw [List.length_cons] at hn hi
    rw [pushWords_cons]
    cases i with
    | zero =>
      refine (read32_congr fun x hx => ?_).trans (read32_write32 s.mem (s.gpr .esp - 4) w)
      refine pushWords_frame ws _ (by omega) fun h => ?_
      have hx : (x - (s.gpr .esp - BitVec.ofNat 32 (4 * (0 + 1)))).toNat < 4 := hx
      have h : (x - ((pushWord s w).gpr .esp - BitVec.ofNat 32 (4 * ws.length))).toNat < _ := h
      rw [pushWord_esp] at h
      bv_omega
    | succ i =>
      have h := ih (pushWord s w) (by omega) (i := i) (by omega)
      rw [pushWord_esp] at h
      refine Eq.trans ?_ h
      congr 1
      bv_omega

/-- The stack after its words have been pushed, seen from the top. -/
theorem read32_stack (st : List Word) (s : State) (hn : 4 * st.length ≤ 2 ^ 32) {j : Nat}
    (hj : j < st.length) :
    read32 (pushWords s st.reverse).mem
      ((pushWords s st.reverse).gpr .esp + BitVec.ofNat 32 (4 * j)) = st[j] := by
  have hlen := st.length_reverse
  have h := read32_pushWords st.reverse s (by omega) (i := st.length - 1 - j) (by omega)
  rw [List.getElem_reverse] at h
  rw [pushWords_esp]
  refine Eq.trans ?_ (h.trans ?_)
  · congr 1
    bv_omega
  · congr 1
    omega

/-- Pushes do not look at the instruction pointer. -/
theorem pushWords_eip (e : Word) (ws : List Word) (s : State) :
    pushWords { s with eip := e } ws = { pushWords s ws with eip := e } := by
  induction ws generalizing s with
  | nil => rfl
  | cons w ws ih => exact ih (pushWord s w)

/-! ## Gates -/

/-- A gate of the interrupt descriptor table. Through an interrupt gate the processor goes on with
interrupts off, through a trap gate it leaves them alone. -/
structure Gate where
  offset : Word
  selector : Half
  dpl : BitVec 2
  trap : Bool
  deriving DecidableEq

/-- The eight bytes of a table entry, the first one lowest. Only 32-bit interrupt and trap gates that
are present are gates. -/
def decodeGate (d : BitVec 64) : Option Gate :=
  if d.getLsbD 47 && !d.getLsbD 44 && d.extractLsb' 41 3 == (7 : BitVec 3) then
    some
      { offset := d.extractLsb' 48 16 ++ d.extractLsb' 0 16
        selector := d.extractLsb' 16 16
        dpl := d.extractLsb' 45 2
        trap := d.getLsbD 40 }
  else none

/-- The exceptions with an error code. -/
def pushesCode (vector : Nat) : Bool :=
  vector == 8 || (10 ≤ vector && vector ≤ 14) || vector == 17

/-- The stack of privilege level 0, from the task state segment. -/
structure InnerStack where
  esp : Word
  ss : Half

/-- What the processor pushes before it goes through a gate: the way back, below it the error code.
The stack pointer is pushed if the privilege level changes. -/
def trapWords (c : Cpu) (inner : Bool) (eflags : Word) (code : Option Word) : List Word :=
  (if inner then [(c.seg .ss).setWidth 32, c.gpr .esp] else []) ++
    [eflags, (c.seg .cs).setWidth 32, c.eip] ++ code.toList

/-- The processor goes through the gate `g`. The interrupted program, whose flags are `eflags`, is to
go on at `c.eip`. -/
def deliver (g : Gate) (t : InnerStack) (eflags : Word) (code : Option Word) (c : Cpu) : Cpu :=
  let inner := decide (rpl g.selector < rpl (c.seg .cs))
  let s := if inner then c.toState.set .esp t.esp else c.toState
  let c' := if inner then c.setSeg .ss t.ss else c
  { c'.setSeg .cs g.selector with
    toState := { pushWords s (trapWords c inner eflags code) with eip := g.offset }
    intr := g.trap && c.intr }

/-! ## Entering -/

inductive EntryInstr where
  | trap (i : TrapInstr)
  | pushImm (v : Word)
  /-- `eax`, `ecx`, `edx`, `ebx`, `esp` as it was, `ebp`, `esi`, `edi` -/
  | pusha
  /-- `mov dst, src`, into the low half of `dst` -/
  | movFromSeg (dst : Reg) (src : Seg)
  /-- `mov dst, v`, into the low half of `dst` -/
  | movLow (dst : Reg) (v : Half)
  /-- a near call from in front of `back` -/
  | call (target back : Word)
  deriving DecidableEq, Repr

def pushaRegs : List Reg := [.eax, .ecx, .edx, .ebx, .esp, .ebp, .esi, .edi]

def setLow (w : Word) (v : Half) : Word := w.extractLsb' 16 16 ++ v

def execEntry (t : Segments) (c : Cpu) : EntryInstr → Option Cpu
  | .trap i => execTrap t c i
  | .pushImm v => some { c with toState := pushWord c.toState v }
  | .pusha => some { c with toState := pushWords c.toState (pushaRegs.map c.gpr) }
  | .movFromSeg dst src =>
    some { c with toState := c.toState.set dst (setLow (c.gpr dst) (c.seg src)) }
  | .movLow dst v => some { c with toState := c.toState.set dst (setLow (c.gpr dst) v) }
  | .call target back => some { c with toState := { pushWord c.toState back with eip := target } }

/-- `none` is a general protection fault. -/
def runEntry (t : Segments) (c : Cpu) (p : List EntryInstr) : Option Cpu := p.foldlM (execEntry t) c

variable {t : Segments} {c : Cpu} {p q : List EntryInstr}

theorem runEntry_cons (i : EntryInstr) :
    runEntry t c (i :: p) = (execEntry t c i).bind (runEntry t · p) :=
  List.foldlM_cons

theorem runEntry_append : runEntry t c (p ++ q) = (runEntry t c p).bind (runEntry t · q) :=
  List.foldlM_append

theorem runEntry_trap (p : List TrapInstr) (c : Cpu) :
    runEntry t c (p.map .trap) = runTrap t c p := by
  induction p generalizing c with
  | nil => rfl
  | cons i p ih =>
    rw [List.map_cons, runEntry_cons, runTrap_cons]
    exact congrArg (Option.bind (execTrap t c i)) (funext ih)

end Hurlex.Lib.Machine
