import Hurlex.Mm.Pmm

/-!
# The First-Fit page manager (`mm/ff_mm.c`)

`free_list` links the descriptors of all free pages in address order. The first page of each run of
consecutive free pages has `PG_NCOUNT` set and the length of the run in `ncount`.

The loops follow the C code step by step. `ff_alloc_pages` has a `while` over `free_list` whose body
ends in `return` on every path, so it looks at the first page only and the model has no loop there.
`ff_show_memory_info` only prints and is left out.
-/

namespace Hurlex.FirstFit

open Lib

/-- `free_list`, or the list field of a page. -/
abbrev PageNode := Node Unit Nat

/-- `&ff_mm_info.free_list`. -/
abbrev freeList : PageNode := .head ()

/-- `struct ff_mm_struct`, with the memory its list runs through. -/
structure FfMm where
  mem : PageMem Unit
  mmAddrStart : Nat
  mmAddrEnd : Nat
  phyPageCount : Nat
  phyPageNowCount : Nat

/-- The body of `ff_page_init`'s loop. -/
def initPage (mem : PageMem Unit) (p : Nat) : PageMem Unit :=
  let mem := mem.modify (.entry p) (Page.setFlag pgReserved)
  { mem with links := listAddBefore mem.links (.entry p) freeList }

/-- `ff_page_init`. -/
def ffPageInit (pmmAddrStart : Nat) (s : FfMm) (pages n : Nat) : Kern FfMm := do
  let mmAddrStart ← pageToAddr pmmAddrStart pages
  let last ← pageToAddr pmmAddrStart (u32Sub (pages + n) 1)
  let mem := { s.mem with links := initListHead s.mem.links freeList }
  let mem := (List.range' pages n).foldl initPage mem
  let mem := mem.modify (.entry pages) (Page.setNum n)
  let mem := mem.modify (.entry pages) (Page.setFlag pgNcount)
  return ⟨mem, mmAddrStart, u32 (last + pageSize), n, n⟩

/-- The `for` loop of `ff_alloc_pages`: `n` pages from `le` on leave the list. Returns where `le`
ends up. -/
def takePages (mem : PageMem Unit) (le : PageNode) : Nat → PageMem Unit × PageNode
  | 0 => (mem, le)
  | n + 1 =>
    let len := mem.links.next le
    let mem := mem.modify le (Page.clearFlag pgReserved)
    takePages { mem with links := listDel mem.links le } len n

/-- The rest of the body of `ff_alloc_pages`'s loop, on the memory: the page behind the pages taken
gets the rest of the run, and `p` no longer heads one. -/
def cutRun (mem : PageMem Unit) (p : Nat) (le : PageNode) (n : Nat) : PageMem Unit :=
  let ncount := (mem.page (.entry p)).num
  let mem :=
    if ncount > n then
      (mem.modify le (Page.setFlag pgNcount)).modify le (Page.setNum (ncount - n))
    else mem
  (mem.modify (.entry p) (Page.setNum 0)).modify (.entry p) (Page.clearFlag pgNcount)

/-- The test of `ff_alloc_pages`'s loop: `is_page_ncount(p) && p->ncount >= n`. -/
def headsRun (mem : PageMem Unit) (p n : Nat) : Bool :=
  (mem.page (.entry p)).isNcount && decide (n ≤ (mem.page (.entry p)).num)

/-- `ff_alloc_pages`. Returns the address, `0` for none. -/
def ffAllocPages (pmmAddrStart : Nat) (s : FfMm) (n : Nat) : Kern (FfMm × Nat) :=
  if n = 0 ∨ n > s.phyPageNowCount then .ok (s, 0)
  else
    match s.mem.links.next freeList with
    | .head _ => .ok (s, 0)
    | .entry p => do
      -- a first page that heads no run of `n` pages is not passed over: nothing is taken off the
      -- list, and the page is returned all the same
      let r := if headsRun s.mem p n then takePages s.mem (.entry p) n else (s.mem, .entry p)
      let addr ← pageToAddr pmmAddrStart p
      return ({ s with
        mem := cutRun r.1 p r.2 n
        phyPageNowCount := u32Sub s.phyPageNowCount n }, addr)

/-- The test of `ff_free_pages`'s first loop: `p > base`. -/
def above (base : Nat) : PageNode → Bool
  | .head _ => false
  | .entry p => decide (p > base)

/-- The `for` loop of `ff_free_pages`. -/
def insertPages (mem : PageMem Unit) (base n : Nat) (le : PageNode) : PageMem Unit :=
  (List.range' base n).foldl
    (fun mem p => { mem with links := listAddBefore mem.links (.entry p) le }) mem

/-- `ff_free_pages`: "merge when `base` touches the memory behind it". -/
def mergeNext (mem : PageMem Unit) (base n : Nat) (le : PageNode) : PageMem Unit :=
  if le = .entry (base + n) then
    let mem := mem.modify (.entry base)
      (Page.setNum (u32 ((mem.page (.entry base)).num + (mem.page le).num)))
    (mem.modify le (Page.clearFlag pgNcount)).modify le (Page.setNum 0)
  else mem

/-- The body of `ff_free_pages`'s second loop. -/
def mergeStep (base : Nat) (mem : PageMem Unit) (le : PageNode) : PageMem Unit :=
  if (mem.page le).isNcount then
    let mem := mem.modify le
      (Page.setNum (u32 ((mem.page le).num + (mem.page (.entry base)).num)))
    (mem.modify (.entry base) (Page.clearFlag pgNcount)).modify (.entry base) (Page.setNum 0)
  else mem

/-- The second loop of `ff_free_pages`: back to the head of the list. `none` when it does not get
there in `fuel` steps. -/
def mergeLoop (base : Nat) : Nat → PageMem Unit → PageNode → Option (PageMem Unit)
  | 0, _, _ => none
  | fuel + 1, mem, le =>
    if le = freeList then some mem
    else
      let mem := mergeStep base mem le
      mergeLoop base fuel mem (mem.links.prev le)

/-- `ff_free_pages`: "merge when `base` touches the memory in front of it". -/
def mergePrev (mem : PageMem Unit) (base fuel : Nat) : Option (PageMem Unit) :=
  let le := mem.links.prev (.entry base)
  if le ≠ freeList ∧ base ≠ 0 ∧ le = .entry (base - 1) then mergeLoop base fuel mem le
  else some mem

/-- `ff_free_pages`. A loop over a list of more pages than there are does not come to its end. -/
def ffFreePages (pmmAddrStart : Nat) (s : FfMm) (addr n : Nat) : Kern FfMm :=
  if n = 0 then .ok s
  else do
    let base ← addrToPage pmmAddrStart addr
    kassert (!(s.mem.page (.entry base)).isReserved) "ff_free_pages error!"
    let mem := s.mem.modify (.entry base) (Page.setRef 0)
    let mem := mem.modify (.entry base) (Page.setFlag pgNcount)
    let mem := mem.modify (.entry base) (Page.setNum n)
    let fuel := s.phyPageCount + 1
    match mem.links.scan freeList (above base) fuel (mem.links.next freeList) with
    | none => .error .noReturn
    | some le? =>
      let le := le?.getD freeList
      let mem := mergeNext (insertPages mem base n le) base n le
      match mergePrev mem base fuel with
      | none => .error .noReturn
      | some mem => .ok { s with mem, phyPageNowCount := u32 (s.phyPageNowCount + n) }

end Hurlex.FirstFit
