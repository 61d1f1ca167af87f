import Hurlex.Mm.Pmm
import Hurlex.Lib.BuddyIndex

/-!
# The buddy page manager (`mm/buddy_mm.c`)

`free_list(o)` links the first pages of the free blocks of `2^o` pages, `nr_free(o)` counts them,
and the first page of each has `PG_ORDER` set and `o` in `order`.

A `page_t *` is an index into `phy_pages`; `pages_base` is the index `buddy_page_init` was given.
`buddy_page_init` ends with a call of `buddy_test_mm`, which allocates and frees pages, so the
state after it is the state after the self-test. What only prints is left out.
-/

namespace Hurlex.Buddy

open Lib

/-- `MAX_ORDER`. -/
def maxOrder : Nat := 10

/-- `free_list(x)`, or the list field of a page. -/
abbrev PageNode := Node Nat Nat

/-- `struct buddy_mm_struct`, with the memory its lists run through. -/
structure BuddyMm where
  mem : PageMem Nat
  nrFree : Nat → Int
  pagesBase : Nat
  mmAddrStart : Nat
  mmAddrEnd : Nat
  phyPageCount : Nat
  phyPageNowCount : Nat

/-- `page->order = order; set_page_order_flag(page); atomic_inc(&nr_free(order));
list_add(&page->list, &free_list(order))`. The three places that put a block on a list make these
writes in different orders. -/
def putBlock (s : BuddyMm) (page order : Nat) : BuddyMm :=
  let mem := (s.mem.modify (.entry page) (Page.setNum order)).modify (.entry page)
    (Page.setFlag pgOrder)
  { s with
    mem := { mem with links := listAdd mem.links (.entry page) (.head order) }
    nrFree := Function.update s.nrFree order (s.nrFree order + 1) }

/-- `atomic_dec(&nr_free(order)); list_del(&page->list)`. -/
def unlinkBlock (s : BuddyMm) (page order : Nat) : BuddyMm :=
  { s with
    mem := { s.mem with links := listDel s.mem.links (.entry page) }
    nrFree := Function.update s.nrFree order (s.nrFree order - 1) }

/-- `clear_page_order_flag`. -/
def clearOrderFlag (s : BuddyMm) (page : Nat) : BuddyMm :=
  { s with mem := s.mem.modify (.entry page) (Page.clearFlag pgOrder) }

/-! ## Allocation -/

/-- The loop of `get_order`, with `k` more turns to go. -/
def getOrderLoop (size : Nat) : Nat → Nat → Nat → Kern Nat
  | 0, _, _ => .error (.panic "getorder failed.")
  | k + 1, order, orderSize =>
    if orderSize ≥ size then .ok order else getOrderLoop size k (order + 1) (u32 (orderSize * 2))

/-- `get_order`. -/
def getOrder (size : Nat) : Kern Nat := getOrderLoop size (maxOrder + 1) 0 1

/-- The `while` loop of `buddy_alloc_pages_sub`, `k` orders above `order`: the upper half of what is
left of the block becomes a block of its own. -/
def splitDown (s : BuddyMm) (page order : Nat) : Nat → BuddyMm
  | 0 => s
  | k + 1 => splitDown (putBlock s (page + 2 ^ (order + k)) (order + k)) page order k

/-- The order the `for` loop of `buddy_alloc_pages_sub` stops at. -/
def findOrder (s : BuddyMm) (order : Nat) : Option Nat :=
  (List.range' order (maxOrder + 1 - order)).find? fun cur => !listEmpty s.mem.links (.head cur)

/-- `buddy_alloc_pages_sub`. `none` is the null pointer. -/
def buddyAllocPagesSub (s : BuddyMm) (order : Nat) : Kern (BuddyMm × Option Nat) := do
  kassert (decide (order ≤ maxOrder)) "buddy_alloc_pages_sub cannot alloc over 1024 pages"
  match findOrder s order with
  | none => .ok (s, none)
  | some cur =>
    match s.mem.links.next (.head cur) with
    | .head _ => .error .wildEntry
    | .entry page =>
      let s := splitDown (unlinkBlock s page cur) page order (cur - order)
      .ok (clearOrderFlag s page, some page)

/-! ## Release -/

/-- `page_to_idx`. -/
def pageToIdx (s : BuddyMm) (page : Nat) : Nat := u32Sub page s.pagesBase

/-- `idx_to_page`. -/
def idxToPage (s : BuddyMm) (idx : Nat) : Nat := s.pagesBase + idx

/-- `page_is_buddy`. -/
def pageIsBuddy (s : BuddyMm) (page order : Nat) : Bool :=
  if pageToIdx s page < s.phyPageCount then
    (s.mem.page (.entry page)).isOrder && decide ((s.mem.page (.entry page)).num = order)
  else false

/-- The `while` loop of `buddy_free_pages_sub`, with `k` orders below `MAX_ORDER` to go: as long as
the block's buddy is free, the two become one block. -/
def coalesce (s : BuddyMm) (pageIdx order : Nat) : Nat → BuddyMm × Nat × Nat
  | 0 => (s, pageIdx, order)
  | k + 1 =>
    let buddyPage := idxToPage s (buddy pageIdx order)
    if pageIsBuddy s buddyPage order then
      let s := clearOrderFlag (unlinkBlock s buddyPage order) buddyPage
      coalesce s (mergeBase pageIdx order) (order + 1) k
    else (s, pageIdx, order)

/-- The `for` loop of `buddy_free_pages_sub`. -/
def clearRefs (s : BuddyMm) (base n : Nat) : BuddyMm :=
  let clear := fun (mem : PageMem Nat) p => mem.modify (.entry p) (Page.setRef 0)
  { s with mem := (List.range' base n).foldl clear s.mem }

/-- `buddy_free_pages_sub`. -/
def buddyFreePagesSub (s : BuddyMm) (base order : Nat) : BuddyMm :=
  let pageIdx := pageToIdx s base
  let r := coalesce (clearRefs s base (2 ^ order)) pageIdx order (maxOrder - order)
  putBlock r.1 (idxToPage r.1 r.2.1) r.2.2

/-- The loop of `buddy_free_pages`. The shift of `order_size` wraps after 32 turns, and the loop then
goes on forever. -/
def freeLoop : Nat → BuddyMm → Nat → Nat → Nat → Nat → Kern BuddyMm
  | 0, _, _, _, _, _ => .error .noReturn
  | k + 1, s, base, n, order, orderSize =>
    if n ≥ orderSize then
      if n &&& orderSize ≠ 0 then
        freeLoop k (buddyFreePagesSub s base order) (base + orderSize) (n - orderSize) (order + 1)
          (orderSize * 2)
      else freeLoop k s base n (order + 1) (orderSize * 2)
    else .ok s

/-- `buddy_free_pages`. -/
def buddyFreePages (pmmAddrStart : Nat) (s : BuddyMm) (addr n : Nat) : Kern BuddyMm :=
  if n = 0 then .ok s
  else do
    let base ← addrToPage pmmAddrStart addr
    let s := { s with phyPageNowCount := u32 (s.phyPageNowCount + n) }
    freeLoop 32 s base n 0 1

/-- `buddy_alloc_pages` gives the pages of the block behind the `n` asked for back through
`buddy_free_pages`. -/
def freeTail (pmmAddrStart : Nat) (s : BuddyMm) (page n orderSize : Nat) : Kern BuddyMm :=
  if n ≠ orderSize then do
    let tail ← pageToAddr pmmAddrStart (page + n)
    buddyFreePages pmmAddrStart s tail (orderSize - n)
  else .ok s

/-- `buddy_alloc_pages`. Returns the address, `0` for none. -/
def buddyAllocPages (pmmAddrStart : Nat) (s : BuddyMm) (n : Nat) : Kern (BuddyMm × Nat) :=
  if n = 0 ∨ n > s.phyPageNowCount then .ok (s, 0)
  else do
    let order ← getOrder n
    let orderSize := 2 ^ order
    match ← buddyAllocPagesSub s order with
    | (s, none) => .ok (s, 0)
    | (s, some page) =>
      let s ← freeTail pmmAddrStart s page n orderSize
      let s := { s with phyPageNowCount := u32Sub s.phyPageNowCount n }
      let addr ← pageToAddr pmmAddrStart page
      return (s, addr)

/-- `buddy_free_pages_count`. -/
def buddyFreePagesCount (s : BuddyMm) : Nat := s.phyPageNowCount

/-! ## Initialisation -/

/-- The inner loop of `buddy_page_init`: blocks of one order, as long as they fit. Returns the pages
left and where they start. `fuel` is at least the number of pages left. -/
def initOrder (order : Nat) : Nat → BuddyMm → Nat → Nat → BuddyMm × Nat × Nat
  | 0, s, n, p => (s, n, p)
  | fuel + 1, s, n, p =>
    if n ≥ 2 ^ order then
      initOrder order fuel (putBlock s p order) (n - 2 ^ order) (p + 2 ^ order)
    else (s, n, p)

/-- The outer loop of `buddy_page_init`, from `order` down. -/
def initBlocks (s : BuddyMm) (n p : Nat) : Nat → Kern BuddyMm
  | 0 =>
    if n = 0 then .ok s
    else
      let r := initOrder 0 n s n p
      if r.2.1 = 0 then .ok r.1 else .error .noReturn
  | order + 1 =>
    if n = 0 then .ok s
    else
      let r := initOrder (order + 1) n s n p
      initBlocks r.1 r.2.1 r.2.2 order

/-- `INIT_LIST_HEAD(&free_list(i)); atomic_set(&nr_free(i), 0)`. -/
def initFreeArea (s : BuddyMm) (i : Nat) : BuddyMm :=
  { s with
    mem := { s.mem with links := initListHead s.mem.links (.head i) }
    nrFree := Function.update s.nrFree i 0 }

/-- Calls of `buddy_alloc_pages` one after the other; what they return is kept. -/
def allocEach (pmmAddrStart : Nat) : List Nat → BuddyMm → Kern (BuddyMm × List (Nat × Nat))
  | [], s => .ok (s, [])
  | n :: sizes, s => do
    let (s, addr) ← buddyAllocPages pmmAddrStart s n
    let (s, pages) ← allocEach pmmAddrStart sizes s
    return (s, (addr, n) :: pages)

/-- Calls of `buddy_free_pages` one after the other. -/
def freeEach (pmmAddrStart : Nat) : List (Nat × Nat) → BuddyMm → Kern BuddyMm
  | [], s => .ok s
  | x :: pages, s => do
    let s ← buddyFreePages pmmAddrStart s x.1 x.2
    freeEach pmmAddrStart pages s

/-- The sizes of the second half of `buddy_test_mm`. -/
def testSizes : List Nat := [8, 16, 18, 27, 32, 129, 547]

/-- `buddy_test_mm`. What an allocation returned is freed whether or not it is `0`. -/
def buddyTestMm (pmmAddrStart : Nat) (s : BuddyMm) : Kern BuddyMm := do
  let (s, pages) ← allocEach pmmAddrStart [1, 2] s
  let s ← freeEach pmmAddrStart pages s
  let (s, pages) ← allocEach pmmAddrStart testSizes s
  freeEach pmmAddrStart pages s

/-- `buddy_page_init`. -/
def buddyPageInit (pmmAddrStart : Nat) (s : BuddyMm) (pages n : Nat) : Kern BuddyMm := do
  let mmAddrStart ← pageToAddr pmmAddrStart pages
  let last ← pageToAddr pmmAddrStart (u32Sub (pages + n) 1)
  let s : BuddyMm := ⟨s.mem, s.nrFree, pages, mmAddrStart, u32 (last + pageSize), n, n⟩
  let s := (List.range (maxOrder + 1)).foldl initFreeArea s
  let s ← initBlocks s n pages maxOrder
  buddyTestMm pmmAddrStart s

end Hurlex.Buddy
