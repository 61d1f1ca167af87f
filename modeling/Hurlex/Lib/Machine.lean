import Mathlib.Data.BitVec
import Mathlib.Data.Set.Disjoint
import Mathlib.Order.Disjoint
import Mathlib.Data.Set.BooleanAlgebra
import Mathlib.Order.CompletePartialOrder

/-!
# A fragment of the i386

General registers, byte memory, and the instructions a routine of moves, pushes and pops is made
of. A routine is a list of instructions run to its end; only `ret` writes `eip`, with the address
control goes to then.
-/

namespace Hurlex.Lib.Machine

abbrev Word := BitVec 32

/-- Byte memory. Addresses wrap around. -/
abbrev Memory := Word → BitVec 8

/-! ## Memory -/

/-- The `n` bytes from `a` on. -/
def bytesFrom (a : Word) (n : Nat) : Set Word := {x | (x - a).toNat < n}

/-- The little-endian word at `a`. -/
def read32 (m : Memory) (a : Word) : Word := m (a + 3) ++ m (a + 2) ++ m (a + 1) ++ m a

/-- The word `v` stored at `a`. -/
def write32 (m : Memory) (a v : Word) : Memory := fun x =>
  if (x - a).toNat < 4 then v.extractLsb' (8 * (x - a).toNat) 8 else m x

variable {m m' : Memory} {a b c d v x : Word} {k l n : Nat}

theorem add_ofNat_sub (a : Word) (hk : k < 2 ^ 32) : (a + BitVec.ofNat 32 k - a).toNat = k := by
  rw [BitVec.add_comm, BitVec.add_sub_cancel, BitVec.toNat_ofNat, Nat.mod_eq_of_lt hk]

theorem add_mem_bytesFrom (a : Word) (hk : k < n) (hn : n ≤ 2 ^ 32) :
    a + BitVec.ofNat 32 k ∈ bytesFrom a n := by
  show (a + BitVec.ofNat 32 k - a).toNat < n
  rw [add_ofNat_sub a (by omega)]
  exact hk

/-- A field of a block. -/
theorem bytesFrom_subset (a : Word) (hk : k + l ≤ n) (hn : n ≤ 2 ^ 32) :
    bytesFrom (a + BitVec.ofNat 32 k) l ⊆ bytesFrom a n := by
  intro x hx
  have hx : (x - (a + BitVec.ofNat 32 k)).toNat < l := hx
  show (x - a).toNat < n
  bv_omega

theorem bytesFrom_disjoint (h1 : k ≤ (b - a).toNat) (h2 : l ≤ (a - b).toNat) :
    Disjoint (bytesFrom a k) (bytesFrom b l) := by
  refine Set.disjoint_left.2 fun x ha hb => ?_
  have ha : (x - a).toNat < k := ha
  have hb : (x - b).toNat < l := hb
  bv_omega

/-- Words at distinct offsets from one base. -/
theorem bytesFrom_add_disjoint (a : Word) (h1 : 4 ≤ (d - c).toNat) (h2 : 4 ≤ (c - d).toNat) :
    Disjoint (bytesFrom (a + c) 4) (bytesFrom (a + d) 4) := by
  refine bytesFrom_disjoint ?_ ?_
  · bv_omega
  · bv_omega

theorem write32_of_notMem (h : x ∉ bytesFrom a 4) : write32 m a v x = m x := if_neg h

theorem write32_add (m : Memory) (a v : Word) (hk : k < 4) :
    write32 m a v (a + BitVec.ofNat 32 k) = v.extractLsb' (8 * k) 8 := by
  unfold write32
  rw [add_ofNat_sub a (by omega), if_pos hk]

/-- A word is its four bytes. -/
theorem bytes_append (v : Word) :
    (v.extractLsb' 24 8 ++ v.extractLsb' 16 8 ++ v.extractLsb' 8 8 ++ v.extractLsb' 0 8 : Word) =
      v := by
  refine BitVec.eq_of_getLsbD_eq fun i hi => ?_
  simp only [BitVec.getLsbD_append, BitVec.getLsbD_extractLsb']
  by_cases h0 : i < 8
  · simp [h0]
  by_cases h1 : i < 16
  · have h1' : i - 8 < 8 := by omega
    simp only [h0, h1', if_false, if_true, decide_true, Bool.true_and]
    congr 1; omega
  by_cases h2 : i < 24
  · have h1' : ¬ i - 8 < 8 := by omega
    have h2' : i - 8 - 8 < 8 := by omega
    simp only [h0, h1', h2', if_false, if_true, decide_true, Bool.true_and]
    congr 1; omega
  · have h1' : ¬ i - 8 < 8 := by omega
    have h2' : ¬ i - 8 - 8 < 8 := by omega
    have h3' : i - 8 - 8 - 8 < 8 := by omega
    simp only [h0, h1', h2', h3', if_false, decide_true, Bool.true_and]
    congr 1; omega

theorem read32_write32 (m : Memory) (a v : Word) : read32 (write32 m a v) a = v := by
  have h0 := write32_add m a v (by decide : 0 < 4)
  have h1 := write32_add m a v (by decide : 1 < 4)
  have h2 := write32_add m a v (by decide : 2 < 4)
  have h3 := write32_add m a v (by decide : 3 < 4)
  rw [BitVec.add_zero] at h0
  have h : read32 (write32 m a v) a = v.extractLsb' (8 * 3) 8 ++ v.extractLsb' (8 * 2) 8 ++
      v.extractLsb' (8 * 1) 8 ++ v.extractLsb' (8 * 0) 8 := by
    unfold read32
    rw [← h3, ← h2, ← h1, ← h0]
    rfl
  rw [h]
  exact bytes_append v

/-- A word is read off its own four bytes. -/
theorem read32_congr (h : ∀ x ∈ bytesFrom a 4, m x = m' x) : read32 m a = read32 m' a := by
  have h0 := h _ (add_mem_bytesFrom a (by decide : 0 < 4) (by decide))
  have h1 := h _ (add_mem_bytesFrom a (by decide : 1 < 4) (by decide))
  have h2 := h _ (add_mem_bytesFrom a (by decide : 2 < 4) (by decide))
  have h3 := h _ (add_mem_bytesFrom a (by decide : 3 < 4) (by decide))
  rw [BitVec.add_zero] at h0
  show m (a + 3) ++ m (a + 2) ++ m (a + 1) ++ m a = m' (a + 3) ++ m' (a + 2) ++ m' (a + 1) ++ m' a
  rw [show m (a + 3) = m' (a + 3) from h3, show m (a + 2) = m' (a + 2) from h2,
    show m (a + 1) = m' (a + 1) from h1, h0]

theorem read32_write32_of_disjoint (h : Disjoint (bytesFrom a 4) (bytesFrom b 4)) :
    read32 (write32 m b v) a = read32 m a :=
  read32_congr fun _ hx => write32_of_notMem (Set.disjoint_left.1 h hx)

/-! ## Instructions -/

inductive Reg where
  | eax | ecx | edx | ebx | esp | ebp | esi | edi
  deriving DecidableEq, Repr

structure State where
  gpr : Reg → Word
  eip : Word
  mem : Memory

/-- `r := v`. -/
def State.set (s : State) (r : Reg) (v : Word) : State :=
  { s with gpr := fun q => if q = r then v else s.gpr q }

@[simp] theorem State.set_mem (s : State) (r : Reg) (v : Word) : (s.set r v).mem = s.mem := rfl

@[simp] theorem State.set_eip (s : State) (r : Reg) (v : Word) : (s.set r v).eip = s.eip := rfl

@[simp] theorem State.set_gpr (s : State) (r q : Reg) (v : Word) :
    (s.set r v).gpr q = if q = r then v else s.gpr q := rfl

inductive Instr where
  /-- `mov dst, [base + disp]` -/
  | load (dst base : Reg) (disp : Word)
  /-- `mov [base + disp], src` -/
  | store (base : Reg) (disp : Word) (src : Reg)
  | push (src : Reg)
  | pop (dst : Reg)
  /-- a near return -/
  | ret
  deriving DecidableEq, Repr

def exec (s : State) : Instr → State
  | .load dst base disp => s.set dst (read32 s.mem (s.gpr base + disp))
  | .store base disp src => { s with mem := write32 s.mem (s.gpr base + disp) (s.gpr src) }
  | .push src =>
    { s.set .esp (s.gpr .esp - 4) with mem := write32 s.mem (s.gpr .esp - 4) (s.gpr src) }
  | .pop dst => (s.set .esp (s.gpr .esp + 4)).set dst (read32 s.mem (s.gpr .esp))
  | .ret => { s.set .esp (s.gpr .esp + 4) with eip := read32 s.mem (s.gpr .esp) }

def run (s : State) (p : List Instr) : State := p.foldl exec s

@[simp] theorem run_nil (s : State) : run s [] = s := rfl

@[simp] theorem run_cons (s : State) (i : Instr) (p : List Instr) :
    run s (i :: p) = run (exec s i) p := rfl

theorem run_append (s : State) (p q : List Instr) : run s (p ++ q) = run (run s p) q :=
  List.foldl_append

end Hurlex.Lib.Machine
