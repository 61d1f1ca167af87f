import Mathlib.Algebra.Group.Nat.Defs

/-!
# Machine words and calls that do not return

`uint32_t` values are natural numbers below `2 ^ 32`; every place where the C code may wrap says so
with `u32` or `u32Sub`.
-/

namespace Hurlex

/-- Store into a `uint32_t`. -/
def u32 (n : Nat) : Nat := n % 2 ^ 32

/-- `a - b` on `uint32_t`. -/
def u32Sub (a b : Nat) : Nat := (a + 2 ^ 32 - b) % 2 ^ 32

theorem u32_of_lt {n : Nat} (h : n < 2 ^ 32) : u32 n = n := Nat.mod_eq_of_lt h

theorem u32Sub_of_le {a b : Nat} (ha : a < 2 ^ 32) (h : b ≤ a) : u32Sub a b = a - b := by
  unfold u32Sub
  rw [Nat.sub_add_comm h, Nat.add_mod_right, Nat.mod_eq_of_lt (by omega)]

/-- How a call may end without returning to its caller: `panic(msg)`, which halts the machine; a
loop that never ends; or arithmetic on a pointer that `list_entry` made from a bare list head, which
the model does not follow. -/
inductive Halt where
  | panic (msg : String)
  | noReturn
  | wildEntry
  deriving DecidableEq, Repr

/-- The result of a call: what it returns, or why it does not. -/
abbrev Kern := Except Halt

/-- `assert(x, info)`. -/
def kassert (x : Bool) (info : String) : Kern Unit := if x then .ok () else .error (.panic info)

theorem Kern.bind_eq_ok {α β : Type} {x : Kern α} {f : α → Kern β} {b : β} :
    x >>= f = .ok b ↔ ∃ a, x = .ok a ∧ f a = .ok b := by
  cases x with
  | error e => exact iff_of_false nofun fun ⟨_, h, _⟩ => nomatch h
  | ok a => exact ⟨fun h => ⟨a, rfl, h⟩, fun ⟨_, ha, h⟩ => by cases ha; exact h⟩

theorem kassert_eq_ok {x : Bool} {info : String} {u : Unit} :
    kassert x info = .ok u ↔ x = true := by
  unfold kassert
  cases x <;> simp

/-! ## The memory layout the managers agree on (`vmm.h`, `pmm.h`) -/

/-- `PAGE_SIZE`, `PMM_PAGE_SIZE`. -/
def pageSize : Nat := 0x1000

/-- `KERNBASE`. -/
def kernbase : Nat := 0xC0000000

/-- `ZONE_HIGHMEM_ADDR`: no managed physical memory from here on. -/
def zoneHighmemAddr : Nat := 0x38000000

/-- `RAM_KERNEL_START`: the kernel, and with it all managed memory, starts here. -/
def ramKernelStart : Nat := 0x100000

/-- `pa_to_ka`. -/
def paToKa (pa : Nat) : Nat := u32 (pa + kernbase)

end Hurlex
