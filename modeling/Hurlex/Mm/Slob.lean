import Hurlex.List
import Hurlex.Types

/-!
# The kernel heap (`mm/slob.c`)

The heap is an area of `SLOB_PAGE_COUNT` pages cut into blocks. A block starts with a
`slob_block_t` (12 bytes on i386: the two bit fields, then the list field) and its `length` bytes
follow. All blocks are on `slob_head`'s list.

A block is named by its address. `Heap.block a` is what the two bit fields at `a` hold; an address
that is not on the list has a value too, but nothing reads it before `split_chunk` has written it.
The 31-bit field `length` is stored through `setLength`, which cuts to 31 bits.
-/

namespace Hurlex.Slob

open Lib

/-- The bit fields of `slob_block_t`. `allocated` is `SLOB_USED` or `SLOB_FREE`. -/
structure SlobBlock where
  allocated : Bool
  length : Nat
  deriving DecidableEq, Repr

/-- `SLOB_USED`. -/
abbrev slobUsed : Bool := true

/-- `SLOB_FREE`. -/
abbrev slobFree : Bool := false

/-- `SLOB_PAGE_COUNT`. -/
def slobPageCount : Nat := 1024

/-- `SLOB_MIN_PART`. -/
def slobMinPart : Nat := 0x20

/-- `sizeof(slob_block_t)`. -/
def sizeofSlobBlock : Nat := 12

/-- The size of the area the heap manages. -/
def slobArea : Nat := slobPageCount * pageSize

/-- `slob_head`, or the list field of the block at an address (`le_to_block`). -/
abbrev SlobNode := Node Unit Nat

/-- `&slob_head`. -/
abbrev slobHead : SlobNode := .head ()

/-- The heap's memory: the list fields and the bit fields of its blocks. -/
structure Heap where
  links : Links SlobNode
  block : Nat → SlobBlock

/-- `block->allocated = v`. -/
def Heap.setAllocated (s : Heap) (b : Nat) (v : Bool) : Heap :=
  { s with block := Function.update s.block b { s.block b with allocated := v } }

/-- `block->length = n`, a 31-bit field. -/
def Heap.setLength (s : Heap) (b n : Nat) : Heap :=
  { s with block := Function.update s.block b { s.block b with length := n % 2 ^ 31 } }

@[simp] theorem Heap.setAllocated_links (s : Heap) (b : Nat) (v : Bool) :
    (s.setAllocated b v).links = s.links := rfl

@[simp] theorem Heap.setLength_links (s : Heap) (b n : Nat) :
    (s.setLength b n).links = s.links := rfl

theorem Heap.setAllocated_self (s : Heap) (b : Nat) (v : Bool) :
    (s.setAllocated b v).block b = ⟨v, (s.block b).length⟩ :=
  Function.update_self ..

theorem Heap.setLength_self (s : Heap) (b n : Nat) :
    (s.setLength b n).block b = ⟨(s.block b).allocated, n % 2 ^ 31⟩ :=
  Function.update_self ..

theorem Heap.setAllocated_of_ne (s : Heap) {a b : Nat} (h : a ≠ b) (v : Bool) :
    (s.setAllocated b v).block a = s.block a :=
  Function.update_of_ne h ..

theorem Heap.setLength_of_ne (s : Heap) {a b : Nat} (h : a ≠ b) (n : Nat) :
    (s.setLength b n).block a = s.block a :=
  Function.update_of_ne h ..

/-- `__slob_alloc_pages`, given what `alloc_pages` returned: `none` is `NULL`. -/
def slobAllocPages (addr : Nat) : Option Nat := if addr = 0 then none else some (paToKa addr)

/-- `slob_init`. `addr` is what `alloc_pages(SLOB_PAGE_COUNT)` returns. -/
def slobInit (s : Heap) (addr : Nat) : Kern Heap :=
  match slobAllocPages addr with
  | none => .error (.panic "Init_slob error! No memory!")
  | some block =>
    let s := s.setAllocated block slobFree
    let s := s.setLength block (u32Sub (slobPageCount * pageSize) sizeofSlobBlock)
    .ok { s with links := listAdd s.links (.entry block) slobHead }

/-- `split_chunk`. -/
def splitChunk (s : Heap) (chunkBlock len : Nat) : Heap :=
  if u32Sub (s.block chunkBlock).length len > sizeofSlobBlock + slobMinPart then
    let newChunk := u32 (chunkBlock + sizeofSlobBlock + len)
    let s := s.setAllocated newChunk slobFree
    let s := s.setLength newChunk (u32Sub (u32Sub (s.block chunkBlock).length len) sizeofSlobBlock)
    let s := { s with links := listAdd s.links (.entry newChunk) (.entry chunkBlock) }
    let s := s.setLength chunkBlock len
    s.setAllocated chunkBlock slobUsed
  else s

/-- The first half of `glue_chunk`: into the block before, when that one is free. Returns the block
that now holds the bytes. `le` stays the list field of the block that was freed. -/
def gluePrev (s : Heap) (chunkBlock : Nat) : Heap × Nat :=
  match s.links.prev (.entry chunkBlock) with
  | .head _ => (s, chunkBlock)
  | .entry prevBlock =>
    if (s.block prevBlock).allocated = slobFree then
      let s := s.setLength prevBlock
        (u32 ((s.block prevBlock).length + u32 ((s.block chunkBlock).length + sizeofSlobBlock)))
      ({ s with links := listDel s.links (.entry chunkBlock) }, prevBlock)
    else (s, chunkBlock)

/-- The second half of `glue_chunk`: `le->next` is read from the list field `le`, also when the
first half has just taken it off the list. -/
def glueNext (s : Heap) (le : SlobNode) (chunkBlock : Nat) : Heap :=
  match s.links.next le with
  | .head _ => s
  | .entry nextBlock =>
    if (s.block nextBlock).allocated = slobFree then
      let s := s.setLength chunkBlock
        (u32 ((s.block chunkBlock).length + u32 ((s.block nextBlock).length + sizeofSlobBlock)))
      { s with links := listDel s.links (.entry nextBlock) }
    else s

/-- `glue_chunk`. -/
def glueChunk (s : Heap) (chunkBlock : Nat) : Heap :=
  let r := gluePrev s chunkBlock
  glueNext r.1 (.entry chunkBlock) r.2

/-- The test of `kmalloc`'s loop: `block->allocated == SLOB_FREE && block->length > len`. -/
def fits (s : Heap) (len : Nat) : SlobNode → Bool
  | .head _ => false
  | .entry b => decide ((s.block b).allocated = slobFree) && decide ((s.block b).length > len)

/-- The block `kmalloc`'s `list_for_each` stops at: `some none` when it comes round to the head,
`none` when it never does (a list of more nodes than the area has bytes does not close). -/
def findFit (s : Heap) (len : Nat) : Option (Option SlobNode) :=
  s.links.scan slobHead (fits s len) slobArea (s.links.next slobHead)

/-- `len` as `kmalloc` computes it from `size`; the addition wraps. -/
def requestLen (size : Nat) : Nat :=
  u32 ((if size > slobMinPart then size else slobMinPart) + sizeofSlobBlock)

/-- `kmalloc`. Returns the address, `0` for `NULL`. -/
def kmalloc (s : Heap) (size : Nat) : Kern (Heap × Nat) :=
  let len := requestLen size
  if listEmpty s.links slobHead then .ok (s, 0)
  else
    match findFit s len with
    | none => .error .noReturn
    | some (some (.entry block)) => .ok (splitChunk s block len, u32 (block + sizeofSlobBlock))
    | some _ => .ok (s, 0)

/-- `kfree`. -/
def kfree (s : Heap) (addr : Nat) : Heap :=
  let block := u32Sub addr sizeofSlobBlock
  if (s.block block).allocated ≠ slobUsed then s
  else glueChunk (s.setAllocated block slobFree) block

end Hurlex.Slob
