import Mathlib.Data.Finset.Max
import Mathlib.Data.BitVec

/-!
# Two 8259A in cascade

The command words a PC sends to its interrupt controllers: the four of the initialisation, the mask,
and the end of an interrupt. A chip hands out the line with the highest priority, which is the one
with the lowest number, and none until everything in service has a lower one.
-/

namespace Hurlex.Lib.Pic

/-- The command word a chip waits for at its second port. -/
inductive Expects where
  | mask | icw2 | icw3 | icw4
  deriving DecidableEq, Repr

structure Chip where
  expects : Expects
  /-- the lines are vectors from here on -/
  base : BitVec 8
  /-- the lines with a chip on them, or the line of the other chip this one is on -/
  cascade : BitVec 8
  icw4 : Bool
  mask : BitVec 8
  inService : Finset Nat
  deriving DecidableEq

/-- A write to the first port. -/
def Chip.command (c : Chip) (v : BitVec 8) : Chip :=
  if v.getLsbD 4 then { c with expects := .icw2, icw4 := v.getLsbD 0, mask := 0, inService := ∅ }
  -- the end of the interrupt in service with the highest priority
  else if v.extractLsb' 5 3 = 1 ∧ v.getLsbD 3 = false then
    { c with inService :=
        if h : c.inService.Nonempty then c.inService.erase (c.inService.min' h) else ∅ }
  else c

/-- A write to the second port. -/
def Chip.data (c : Chip) (v : BitVec 8) : Chip :=
  match c.expects with
  | .icw2 => { c with base := v &&& 0xF8, expects := .icw3 }
  | .icw3 => { c with cascade := v, expects := if c.icw4 then .icw4 else .mask }
  | .icw4 => { c with expects := .mask }
  | .mask => { c with mask := v }

/-- The chip can hand out line `k`. -/
def Chip.Accepts (c : Chip) (k : Nat) : Prop :=
  k < 8 ∧ c.mask.getLsbD k = false ∧ ∀ j ∈ c.inService, k < j

def Chip.serve (c : Chip) (k : Nat) : Chip := { c with inService := insert k c.inService }

def Chip.vector (c : Chip) (k : Nat) : Nat := c.base.toNat + k

structure Pair where
  master : Chip
  slave : Chip
  deriving DecidableEq

/-- Ports `0x20`, `0x21`, `0xA0` and `0xA1`. -/
def Pair.outb (p : Pair) (port : BitVec 16) (v : BitVec 8) : Pair :=
  if port = 0x20 then { p with master := p.master.command v }
  else if port = 0x21 then { p with master := p.master.data v }
  else if port = 0xA0 then { p with slave := p.slave.command v }
  else if port = 0xA1 then { p with slave := p.slave.data v }
  else p

/-- The pair hands an interrupt of one of the sixteen lines to the processor, as a vector. A line of
the slave comes through line 2 of the master. A request that has gone away by the time the processor
asks comes as line 7 of its chip, which is then not in service. -/
inductive Pair.Hands : Pair → Nat → Nat → Pair → Prop
  | master {p : Pair} {k : Nat} (hk : p.master.Accepts k) (h2 : p.master.cascade.getLsbD k = false) :
      Hands p k (p.master.vector k) { p with master := p.master.serve k }
  | slave {p : Pair} {k n : Nat} (hk : p.slave.Accepts k) (hn : p.master.Accepts n)
      (h2 : p.master.cascade.getLsbD n = true) (hid : p.slave.cascade.toNat = n) :
      Hands p (8 + k) (p.slave.vector k)
        { p with master := p.master.serve n, slave := p.slave.serve k }
  | noMaster {p : Pair} : Hands p 7 (p.master.vector 7) p
  | noSlave {p : Pair} {n : Nat} (hn : p.master.Accepts n) (h2 : p.master.cascade.getLsbD n = true)
      (hid : p.slave.cascade.toNat = n) :
      Hands p 15 (p.slave.vector 7) { p with master := p.master.serve n }

variable {c : Chip} {k : Nat}

theorem command_end (c : Chip) : c.command 0x20 =
    { c with inService :=
        if h : c.inService.Nonempty then c.inService.erase (c.inService.min' h) else ∅ } := rfl

/-- With nothing in service there is nothing to end. -/
theorem end_idle (h : c.inService = ∅) : c.command 0x20 = c := by
  obtain ⟨e, b, s, i, m, is⟩ := c
  subst h
  rfl

/-- **The end of an interrupt undoes its start**, whatever else is in service. -/
theorem end_serve (h : c.Accepts k) : (c.serve k).command 0x20 = c := by
  obtain ⟨e, b, s, i, m, is⟩ := c
  obtain ⟨-, -, hlow⟩ := h
  have hk : k ∉ is := fun hk => Nat.lt_irrefl k (hlow k hk)
  have hne : (insert k is).Nonempty := Finset.insert_nonempty k is
  have hmin : (insert k is).min' hne = k := by
    refine le_antisymm (Finset.min'_le _ _ (Finset.mem_insert_self k is)) ?_
    refine Finset.le_min' _ _ _ fun j hj => ?_
    rcases Finset.mem_insert.1 hj with rfl | hj
    · exact le_refl _
    · exact Nat.le_of_lt (hlow j hj)
  rw [command_end]
  unfold Chip.serve
  simp only [dif_pos hne, hmin, Finset.erase_insert hk]

end Hurlex.Lib.Pic
