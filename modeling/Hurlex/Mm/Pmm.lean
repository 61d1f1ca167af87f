import Hurlex.List
import Hurlex.Types
import Hurlex.Lib.Segment
import Mathlib.Data.BitVec

/-!
# Physical pages (`arch/i386/mm/pmm.c`, `pmm.h`)

`phy_pages` has one `page_t` for each managed page; a `page_t *` is its index there. A manager links
the `page_t`s of free pages through their list fields, so a `struct list_head` is a manager's list
head or the list field of a page (`Node H Nat`). `le_to_page` takes either back to a `page_t`; for
the list field of a page it is that page, and for a list head it is whatever lies in front of the
head, which `PageMem` gives a value of its own.
-/

namespace Hurlex

open Lib

/-! ## Bits of a word (`atomic.h`) -/

/-- `set_bit`. -/
def setBit (nr : Nat) (w : BitVec 32) : BitVec 32 := w ||| BitVec.twoPow 32 nr

/-- `clear_bit`. -/
def clearBit (nr : Nat) (w : BitVec 32) : BitVec 32 := w &&& ~~~ BitVec.twoPow 32 nr

/-- `test_bit`. -/
def testBit (nr : Nat) (w : BitVec 32) : Bool := w.getLsbD nr

theorem testBit_setBit {m n : Nat} (hn : n < 32) (w : BitVec 32) :
    testBit n (setBit m w) = (decide (m = n) || testBit n w) := by
  by_cases h : m = n
  · subst h
    simp [testBit, setBit, hn]
  · simp [testBit, setBit, h]

theorem testBit_clearBit {m n : Nat} (hn : n < 32) (w : BitVec 32) :
    testBit n (clearBit m w) = (!decide (m = n) && testBit n w) := by
  by_cases h : m = n
  · subst h
    simp [testBit, clearBit, hn]
  · simp [testBit, clearBit, h, Ne.symm h, hn]

/-! ## Pages -/

/-- `page_t`, less its list field. `num` is the union of `ncount` and `order`. -/
structure Page where
  ref : Int
  flag : BitVec 32
  num : Nat
  deriving DecidableEq

/-- `PG_RESERVED`. -/
def pgReserved : Nat := 0

/-- `PG_NCOUNT`. -/
def pgNcount : Nat := 1

/-- `PG_ORDER`. -/
def pgOrder : Nat := 2

@[simp] theorem pgReserved_ne_pgNcount : pgReserved ≠ pgNcount := by decide
@[simp] theorem pgNcount_ne_pgReserved : pgNcount ≠ pgReserved := by decide
@[simp] theorem pgOrder_ne_pgReserved : pgOrder ≠ pgReserved := by decide
@[simp] theorem pgReserved_ne_pgOrder : pgReserved ≠ pgOrder := by decide

namespace Page

/-- A descriptor as `phy_pages_init` leaves it: `bzero`ed. -/
def zero : Page := ⟨0, 0, 0⟩

def setFlag (nr : Nat) (p : Page) : Page := { p with flag := setBit nr p.flag }

def clearFlag (nr : Nat) (p : Page) : Page := { p with flag := clearBit nr p.flag }

/-- `is_page_reserved`. -/
def isReserved (p : Page) : Bool := testBit pgReserved p.flag

/-- `is_page_ncount`. -/
def isNcount (p : Page) : Bool := testBit pgNcount p.flag

/-- `is_page_order`. -/
def isOrder (p : Page) : Bool := testBit pgOrder p.flag

def setNum (n : Nat) (p : Page) : Page := { p with num := n }

def setRef (n : Int) (p : Page) : Page := { p with ref := n }

variable (p : Page)

@[simp] theorem setFlag_num (nr : Nat) : (p.setFlag nr).num = p.num := rfl
@[simp] theorem clearFlag_num (nr : Nat) : (p.clearFlag nr).num = p.num := rfl
@[simp] theorem setNum_num (n : Nat) : (p.setNum n).num = n := rfl
@[simp] theorem setRef_num (n : Int) : (p.setRef n).num = p.num := rfl

@[simp] theorem isReserved_setFlag (nr : Nat) :
    (p.setFlag nr).isReserved = (decide (nr = pgReserved) || p.isReserved) :=
  testBit_setBit (by decide) _

@[simp] theorem isNcount_setFlag (nr : Nat) :
    (p.setFlag nr).isNcount = (decide (nr = pgNcount) || p.isNcount) :=
  testBit_setBit (by decide) _

@[simp] theorem isOrder_setFlag (nr : Nat) :
    (p.setFlag nr).isOrder = (decide (nr = pgOrder) || p.isOrder) :=
  testBit_setBit (by decide) _

@[simp] theorem isReserved_clearFlag (nr : Nat) :
    (p.clearFlag nr).isReserved = (!decide (nr = pgReserved) && p.isReserved) :=
  testBit_clearBit (by decide) _

@[simp] theorem isNcount_clearFlag (nr : Nat) :
    (p.clearFlag nr).isNcount = (!decide (nr = pgNcount) && p.isNcount) :=
  testBit_clearBit (by decide) _

@[simp] theorem isOrder_clearFlag (nr : Nat) :
    (p.clearFlag nr).isOrder = (!decide (nr = pgOrder) && p.isOrder) :=
  testBit_clearBit (by decide) _

@[simp] theorem isReserved_setNum (n : Nat) : (p.setNum n).isReserved = p.isReserved := rfl
@[simp] theorem isNcount_setNum (n : Nat) : (p.setNum n).isNcount = p.isNcount := rfl
@[simp] theorem isOrder_setNum (n : Nat) : (p.setNum n).isOrder = p.isOrder := rfl
@[simp] theorem isReserved_setRef (n : Int) : (p.setRef n).isReserved = p.isReserved := rfl
@[simp] theorem isNcount_setRef (n : Int) : (p.setRef n).isNcount = p.isNcount := rfl
@[simp] theorem isOrder_setRef (n : Int) : (p.setRef n).isOrder = p.isOrder := rfl

theorem clearFlag_clearFlag (nr : Nat) : (p.clearFlag nr).clearFlag nr = p.clearFlag nr := by
  simp only [clearFlag, clearBit, BitVec.and_assoc, BitVec.and_self]

end Page

/-- The memory of a manager whose list heads are named by `H`: list fields and descriptors. -/
structure PageMem (H : Type) where
  links : Links (Node H Nat)
  page : Node H Nat → Page

namespace PageMem

variable {H : Type} [DecidableEq H]

/-- A write to the descriptor `le_to_page(le)`. -/
def modify (s : PageMem H) (le : Node H Nat) (f : Page → Page) : PageMem H :=
  { s with page := Function.update s.page le (f (s.page le)) }

@[simp] theorem modify_links (s : PageMem H) (le : Node H Nat) (f : Page → Page) :
    (s.modify le f).links = s.links := rfl

theorem modify_self (s : PageMem H) (le : Node H Nat) (f : Page → Page) :
    (s.modify le f).page le = f (s.page le) :=
  Function.update_self ..

theorem modify_of_ne (s : PageMem H) {le x : Node H Nat} (h : x ≠ le) (f : Page → Page) :
    (s.modify le f).page x = s.page x :=
  Function.update_of_ne h ..

theorem modify_eq_self (s : PageMem H) {le : Node H Nat} {f : Page → Page}
    (h : f (s.page le) = s.page le) : s.modify le f = s := by
  rw [modify, h, Function.update_eq_self]

end PageMem

/-! ## Addresses -/

/-- `page_to_addr`. -/
def pageToAddr (pmmAddrStart page : Nat) : Kern Nat := do
  kassert (decide (pmmAddrStart ≠ 0)) "memory not init, addr_to_page cannot use"
  return u32 (pmmAddrStart + u32 (page * pageSize))

/-- `addr_to_page`. `addr & PMM_PAGE_MASK` drops the last twelve bits. -/
def addrToPage (pmmAddrStart addr : Nat) : Kern Nat := do
  kassert (decide (pmmAddrStart ≠ 0)) "memory not init, addr_to_page cannot use"
  return u32Sub (addr / pageSize * pageSize) pmmAddrStart / pageSize

/-- `page_to_addr` and `addr_to_page` on a page below 4 GB. -/
theorem page_addr_page {start i : Nat} (hal : pageSize ∣ start) (hpos : start ≠ 0)
    (hlt : start + i * pageSize < 2 ^ 32) :
    pageToAddr start i = .ok (start + i * pageSize) ∧
      addrToPage start (start + i * pageSize) = .ok i := by
  have hpage : (start + i * pageSize) / pageSize * pageSize = start + i * pageSize :=
    Nat.div_mul_cancel ((Nat.dvd_add_right hal).mpr (Nat.dvd_mul_left _ _))
  have hsub : u32Sub (start + i * pageSize) start / pageSize = i := by
    rw [u32Sub_of_le hlt (Nat.le_add_right _ _), Nat.add_sub_cancel_left,
      Nat.mul_div_cancel _ (by decide)]
  unfold pageToAddr addrToPage kassert
  rw [decide_eq_true hpos, u32_of_lt (Nat.lt_of_le_of_lt (Nat.le_add_left _ _) hlt),
    u32_of_lt hlt, hpage, hsub]
  exact ⟨rfl, rfl⟩

/-- The managed pages: `count` pages from `start` on. `phy_pages_init` starts them on a page
boundary behind the kernel and ends them at `ZONE_HIGHMEM_ADDR` at the latest. -/
structure PhyMem where
  start : Nat
  count : Nat
  aligned : pageSize ∣ start
  kernel : ramKernelStart ≤ start
  count_pos : 0 < count
  high : start + count * pageSize ≤ zoneHighmemAddr

namespace PhyMem

variable (M : PhyMem)

/-- The address of page `i`. -/
def addr (i : Nat) : Nat := M.start + i * pageSize

/-- The index of the page an address is in. -/
def index (a : Nat) : Nat := (a - M.start) / pageSize

/-- The pages of an allocation, given as `(address, n)`. -/
def liveSeg (x : Nat × Nat) : Seg := (M.index x.1, x.2)

theorem pos : 0 < M.start := Nat.lt_of_lt_of_le (by decide) M.kernel

theorem count_lt : M.count < 2 ^ 20 := by
  have := M.high
  have := M.pos
  simp only [pageSize, zoneHighmemAddr] at *
  omega

theorem index_addr (i : Nat) : M.index (M.addr i) = i := by
  unfold index addr
  rw [Nat.add_sub_cancel_left, Nat.mul_div_cancel _ (by decide)]

theorem addr_injective : Function.Injective M.addr :=
  Function.LeftInverse.injective M.index_addr

theorem addr_ne_zero (i : Nat) : M.addr i ≠ 0 := by
  have := M.pos
  unfold addr
  omega

theorem start_ne_zero : M.start ≠ 0 := M.pos.ne'

/-- The addresses of the managed pages do not wrap. -/
theorem addr_lt_word {i : Nat} (hi : i ≤ M.count) : M.start + i * pageSize < 2 ^ 32 := by
  have hend := M.high
  have hmul : i * pageSize ≤ M.count * pageSize := Nat.mul_le_mul_right _ hi
  have hzone : zoneHighmemAddr = 0x38000000 := rfl
  omega

theorem pageToAddr_eq {i : Nat} (hi : i ≤ M.count) : pageToAddr M.start i = .ok (M.addr i) :=
  (page_addr_page M.aligned M.start_ne_zero (M.addr_lt_word hi)).1

theorem addrToPage_eq {i : Nat} (hi : i ≤ M.count) : addrToPage M.start (M.addr i) = .ok i :=
  (page_addr_page M.aligned M.start_ne_zero (M.addr_lt_word hi)).2

/-- Managed memory may start at 2 MB. -/
theorem aligned_2M : pageSize ∣ 0x200000 := by decide

theorem kernel_2M : ramKernelStart ≤ 0x200000 := by decide

end PhyMem

end Hurlex
