import Hurlex.Mm.Slob
import Hurlex.Lib.Segment
import Mathlib.Data.List.Chain
import Mathlib.Data.List.Find

/-!
# The heap as a list of blocks

`Rep s bs`: the memory `s` holds the block list `bs`, in list order. `splitBlock` and `release` are
what an allocation and a free do to the list; `splitChunk_rep` and `kfree_rep` say that the code
does exactly this to the memory.

`HeapInv base bs` is the heap invariant: the blocks tile the area from `base` on, and of two
neighbours one is in use. From the tiling alone every address and length the code computes is in
range, so no 32-bit sum and no 31-bit field wraps.
-/

namespace Hurlex.Slob

open Lib

/-- A block as the list shows it. -/
structure Blk where
  addr : Nat
  used : Bool
  len : Nat
  deriving DecidableEq, Repr

namespace Blk

/-- The block's list field. -/
def node (b : Blk) : SlobNode := .entry b.addr

/-- The block's bit fields. -/
def fields (b : Blk) : SlobBlock := ⟨b.used, b.len⟩

/-- The bytes of the block, header included. -/
def seg (b : Blk) : Seg := (b.addr, sizeofSlobBlock + b.len)

theorem node_inj {b c : Blk} : b.node = c.node ↔ b.addr = c.addr := by
  simp [node]

end Blk

/-- The memory `s` holds the block list `bs`. -/
structure Rep (s : Heap) (bs : List Blk) : Prop where
  ring : LinkRing s.links slobHead (bs.map Blk.node)
  fields : ∀ b ∈ bs, s.block b.addr = b.fields

/-- **The heap invariant** over the block list. -/
structure HeapInv (base : Nat) (bs : List Blk) : Prop where
  tiles : Tiles base (base + slobArea) (bs.map Blk.seg)
  coalesced : bs.IsChain fun a b => a.used = slobUsed ∨ b.used = slobUsed

/-- A place for the heap: the physical area `alloc_pages(SLOB_PAGE_COUNT)` gave. All managed memory
lies below `ZONE_HIGHMEM_ADDR`, and frame 0 is never handed out. -/
structure Area where
  pa : Nat
  pos : 0 < pa
  high : pa + slobArea ≤ zoneHighmemAddr

/-- The address of the heap's first block. -/
def Area.base (A : Area) : Nat := paToKa A.pa

theorem Area.base_eq (A : Area) : A.base = A.pa + kernbase := by
  have := A.high
  refine u32_of_lt ?_
  simp only [slobArea, slobPageCount, pageSize, zoneHighmemAddr, kernbase] at *
  omega

/-! ## Bounds -/

section Bounds

variable {A : Area} {bs : List Blk} {b : Blk}

/-- What the tiling says of one block, in numbers. -/
theorem HeapInv.bounds (hi : HeapInv A.base bs) (hb : b ∈ bs) :
    A.base ≤ b.addr ∧ b.addr + 12 + b.len ≤ A.base + 4194304 ∧
      A.base + 4194304 ≤ 0xF8000000 ∧ 0xC0000000 < A.base := by
  have h1 := hi.tiles.bounds (List.mem_map_of_mem (f := Blk.seg) hb)
  have h2 := A.high
  have h3 := A.pos
  have h4 := A.base_eq
  simp only [Blk.seg, slobArea, slobPageCount, pageSize, zoneHighmemAddr, kernbase,
    sizeofSlobBlock] at *
  omega

/-- **No length wraps its 31 bits.** -/
theorem HeapInv.len_lt (hi : HeapInv A.base bs) (hb : b ∈ bs) : b.len < 2 ^ 31 := by
  have := hi.bounds hb
  omega

/-- Blocks earlier in the list end before later ones start. -/
theorem HeapInv.ordered (hi : HeapInv A.base bs) :
    bs.Pairwise fun a b => a.addr + 12 + a.len ≤ b.addr := by
  have := List.pairwise_map.mp hi.tiles.pairwise
  refine this.imp fun h => ?_
  simp only [Blk.seg, sizeofSlobBlock] at h
  omega

/-- An address strictly inside one block heads no block. -/
theorem HeapInv.inside {xs ys : List Blk} {a : Nat} (hi : HeapInv A.base (xs ++ b :: ys))
    (h1 : b.addr < a) (h2 : a < b.addr + 12 + b.len) :
    ∀ c ∈ xs ++ b :: ys, c.addr ≠ a := by
  have hp := hi.ordered
  rw [List.pairwise_append, List.pairwise_cons] at hp
  obtain ⟨-, ⟨hys, -⟩, hxs⟩ := hp
  intro c hc
  rcases List.mem_append.mp hc with hc | hc
  · have := hxs c hc b List.mem_cons_self
    omega
  · rcases List.mem_cons.mp hc with rfl | hc
    · omega
    · have := hys c hc
      omega

/-- The list is shorter than the area is long: `kmalloc`'s walk comes to an end. -/
theorem HeapInv.length_lt (hi : HeapInv A.base bs) : bs.length < slobArea := by
  have key : ∀ (l : List Blk) (lo hi : Nat), Tiles lo hi (l.map Blk.seg) →
      lo + 12 * l.length ≤ hi := by
    intro l
    induction l with
    | nil =>
      intro lo hi h
      simpa using Nat.le_of_eq h
    | cons c l ih =>
      intro lo hi h
      have := ih _ _ h.2
      simp only [Blk.seg, sizeofSlobBlock, List.length_cons] at *
      omega
  have := key bs _ _ hi.tiles
  have harea : slobArea = 4194304 := by decide
  omega

end Bounds

/-! ## Writing to the represented memory -/

section Write

variable {s : Heap} {bs xs ys : List Blk} {b : Blk}

theorem Rep.addr_nodup (h : Rep s bs) : (bs.map Blk.addr).Nodup := by
  refine List.Nodup.of_map (fun a => (Node.entry a : SlobNode)) ?_
  rw [List.map_map]
  exact (List.nodup_cons.mp h.ring.nodup).2

/-- Writing the bit fields at an address off the list. -/
theorem Rep.write_off {s' : Heap} {a : Nat} (h : Rep s bs) (ha : ∀ c ∈ bs, c.addr ≠ a)
    (hl : s'.links = s.links) (hs : ∀ c, c ≠ a → s'.block c = s.block c) : Rep s' bs :=
  ⟨hl ▸ h.ring, fun c hc => (hs c.addr (ha c hc)).trans (h.fields c hc)⟩

/-- Writing the bit fields of one block of the list. -/
theorem Rep.write {s' : Heap} {b' : Blk} (h : Rep s (xs ++ b :: ys)) (ha : b'.addr = b.addr)
    (hl : s'.links = s.links) (hb : s'.block b.addr = b'.fields)
    (hs : ∀ c, c ≠ b.addr → s'.block c = s.block c) : Rep s' (xs ++ b' :: ys) := by
  have hnd := h.addr_nodup
  rw [List.map_append, List.map_cons, List.nodup_append, List.nodup_cons] at hnd
  obtain ⟨-, ⟨hys, -⟩, hxs⟩ := hnd
  refine ⟨?_, fun c hc => ?_⟩
  · have hn : b'.node = b.node := Blk.node_inj.mpr ha
    simpa [hn, hl] using h.ring
  · rcases List.mem_append.mp hc with hc | hc
    · have hne : c.addr ≠ b.addr :=
        hxs _ (List.mem_map_of_mem hc) _ List.mem_cons_self
      rw [hs _ hne]
      exact h.fields c (List.mem_append_left _ hc)
    · rcases List.mem_cons.mp hc with rfl | hc
      · rw [ha, hb]
      · have hne : c.addr ≠ b.addr := fun e => hys (e ▸ List.mem_map_of_mem hc)
        rw [hs _ hne]
        exact h.fields c (List.mem_append_right _ (List.mem_cons_of_mem _ hc))

theorem Rep.setAllocated (h : Rep s (xs ++ b :: ys)) (v : Bool) :
    Rep (s.setAllocated b.addr v) (xs ++ { b with used := v } :: ys) := by
  refine h.write rfl rfl ?_ fun c hc => s.setAllocated_of_ne hc v
  rw [s.setAllocated_self, h.fields b (by simp)]
  rfl

theorem Rep.setLength (h : Rep s (xs ++ b :: ys)) {n : Nat} (hn : n < 2 ^ 31) :
    Rep (s.setLength b.addr n) (xs ++ { b with len := n } :: ys) := by
  refine h.write rfl rfl ?_ fun c hc => s.setLength_of_ne hc n
  rw [s.setLength_self, h.fields b (by simp), Nat.mod_eq_of_lt hn]
  rfl

/-- `list_add` of a new block, whose fields are written, after the block `b`. -/
theorem Rep.listAdd {c : Blk} (h : Rep s (xs ++ b :: ys)) (hc : s.block c.addr = c.fields)
    (hnew : ∀ d ∈ xs ++ b :: ys, d.addr ≠ c.addr) :
    Rep { s with links := listAdd s.links c.node b.node } (xs ++ b :: c :: ys) := by
  constructor
  · have hx : c.node ∉ slobHead :: (xs.map Blk.node ++ b.node :: ys.map Blk.node) := by
      intro hm
      rcases List.mem_cons.mp hm with hm | hm
      · simp [Blk.node] at hm
      · rw [← List.map_cons, ← List.map_append] at hm
        obtain ⟨d, hd, e⟩ := List.mem_map.mp hm
        exact hnew d hd (Blk.node_inj.mp e)
    have hring : LinkRing s.links slobHead (xs.map Blk.node ++ b.node :: ys.map Blk.node) := by
      simpa using h.ring
    simpa using listAdd_ring_mem hring hx
  · intro d hd
    have hd' : d = c ∨ d ∈ xs ++ b :: ys := by
      simp only [List.mem_append, List.mem_cons] at hd ⊢
      tauto
    rcases hd' with rfl | hd'
    · exact hc
    · exact h.fields d hd'

/-- `list_del` of the block `b`. -/
theorem Rep.listDel (h : Rep s (xs ++ b :: ys)) :
    Rep { s with links := listDel s.links b.node } (xs ++ ys) := by
  constructor
  · have hring : LinkRing s.links slobHead (xs.map Blk.node ++ b.node :: ys.map Blk.node) := by
      simpa using h.ring
    simpa using listDel_ring hring
  · intro d hd
    refine h.fields d ?_
    simp only [List.mem_append, List.mem_cons] at hd ⊢
    tauto

/-- `list_del` of the block behind `a`. -/
theorem Rep.listDel_behind {a : Blk} (h : Rep s (xs ++ a :: b :: ys)) :
    Rep { s with links := Hurlex.listDel s.links b.node } (xs ++ a :: ys) := by
  rw [← List.singleton_append, ← List.append_assoc] at h
  simpa using h.listDel

/-- The list field after `b`'s. -/
theorem Rep.next (h : Rep s (xs ++ b :: ys)) :
    s.links.next b.node = ((ys.map Blk.node).head?).getD slobHead := by
  have hring : LinkRing s.links slobHead (xs.map Blk.node ++ b.node :: ys.map Blk.node) := by
    simpa using h.ring
  have := hring.next_mem
  cases ys with
  | nil => simpa using this.symm
  | cons c ys => simpa using this.symm

/-- The list field before `b`'s. -/
theorem Rep.prev (h : Rep s (xs ++ b :: ys)) :
    s.links.prev b.node = ((xs.map Blk.node).getLast?).getD slobHead := by
  have hring : LinkRing s.links slobHead (xs.map Blk.node ++ b.node :: ys.map Blk.node) := by
    simpa using h.ring
  have := hring.prev_mem
  rcases List.eq_nil_or_concat xs with rfl | ⟨zs, p, rfl⟩
  · simpa using this.symm
  · rw [List.concat_eq_append, List.map_append, ← List.cons_append, List.getLast?_append] at this
    simpa using this.symm

end Write

/-! ## `split_chunk` -/

/-- The two blocks `split_chunk` leaves in place of a free block `b` cut at `len`. -/
def splitBlock (b : Blk) (len : Nat) : List Blk :=
  [⟨b.addr, slobUsed, len⟩,
    ⟨b.addr + sizeofSlobBlock + len, slobFree, b.len - len - sizeofSlobBlock⟩]

section Steps

variable {A : Area} {s : Heap} {bs xs ys : List Blk} {b : Blk}

/-- `split_chunk` on a block with more than `44` bytes to spare. -/
theorem splitChunk_rep {len : Nat} (h : Rep s (xs ++ b :: ys))
    (hi : HeapInv A.base (xs ++ b :: ys)) (hlen : len + 44 < b.len) :
    Rep (splitChunk s b.addr len) (xs ++ splitBlock b len ++ ys) := by
  have hb : b ∈ xs ++ b :: ys := by simp
  have hbd := hi.bounds hb
  have hfb : s.block b.addr = b.fields := h.fields b hb
  have hfresh := hi.inside (a := b.addr + 12 + len) (by omega) (by omega)
  have hne : b.addr ≠ b.addr + 12 + len := by omega
  have hL : (s.block b.addr).length = b.len := by rw [hfb]; rfl
  have hcond : u32Sub (s.block b.addr).length len > sizeofSlobBlock + slobMinPart := by
    rw [hL, u32Sub_of_le (by omega) (by omega)]
    simp only [sizeofSlobBlock, slobMinPart]
    omega
  have hnew : u32 (b.addr + sizeofSlobBlock + len) = b.addr + 12 + len :=
    u32_of_lt (by simp only [sizeofSlobBlock]; omega)
  have hrest : u32Sub (u32Sub b.len len) sizeofSlobBlock = b.len - len - 12 := by
    rw [u32Sub_of_le (a := b.len) (by omega) (by omega), sizeofSlobBlock,
      u32Sub_of_le (by omega) (by omega)]
  unfold splitChunk
  rw [if_pos hcond, hnew]
  set new := b.addr + 12 + len with hnewdef
  -- the header in the middle of the block: two writes off the list
  have h1 : Rep (s.setAllocated new slobFree) (xs ++ b :: ys) :=
    h.write_off hfresh rfl fun c hc => s.setAllocated_of_ne hc _
  have hL1 : ((s.setAllocated new slobFree).block b.addr).length = b.len := by
    rw [s.setAllocated_of_ne hne, hL]
  simp only [hL1, hrest]
  have h2 : Rep ((s.setAllocated new slobFree).setLength new (b.len - len - 12)) (xs ++ b :: ys) :=
    h1.write_off hfresh rfl fun c hc => Heap.setLength_of_ne _ hc _
  have hc : ((s.setAllocated new slobFree).setLength new (b.len - len - 12)).block new =
      (⟨new, slobFree, b.len - len - 12⟩ : Blk).fields := by
    rw [Heap.setLength_self, Heap.setAllocated_self, Nat.mod_eq_of_lt (by omega)]
    rfl
  have h3 := h2.listAdd (c := ⟨new, slobFree, b.len - len - 12⟩) hc hfresh
  have h4 := (h3.setLength (n := len) (by omega)).setAllocated slobUsed
  simpa [splitBlock, hnewdef, Blk.node, sizeofSlobBlock] using h4

/-- `split_chunk` does nothing to a block with at most `44` bytes to spare. -/
theorem splitChunk_keep {len : Nat} (hi : HeapInv A.base (xs ++ b :: ys))
    (hf : s.block b.addr = b.fields) (hfit : len < b.len) (hlen : b.len ≤ len + 44) :
    splitChunk s b.addr len = s := by
  have hbd := hi.bounds (b := b) (by simp)
  unfold splitChunk
  rw [if_neg]
  rw [hf, show b.fields.length = b.len from rfl, u32Sub_of_le (by omega) (by omega)]
  simp only [sizeofSlobBlock, slobMinPart]
  omega

/-- Splitting keeps the heap invariant. -/
theorem splitBlock_inv {len : Nat} (hi : HeapInv A.base (xs ++ b :: ys)) (hfree : b.used = slobFree)
    (hlen : len + 44 < b.len) : HeapInv A.base (xs ++ splitBlock b len ++ ys) := by
  obtain ⟨ht, hc⟩ := hi
  constructor
  · rw [List.map_append, tiles_append] at ht
    obtain ⟨mid, hx, hb, hy⟩ := ht
    rw [List.append_assoc, List.map_append, tiles_append]
    refine ⟨mid, hx, ?_⟩
    simp only [Blk.seg, splitBlock, List.cons_append, List.nil_append, List.map_cons, Tiles,
      sizeofSlobBlock] at hb hy ⊢
    refine ⟨hb, by omega, ?_⟩
    have e : mid + (12 + len) + (12 + (b.len - len - 12)) = mid + (12 + b.len) := by omega
    rwa [e]
  · rw [List.isChain_append] at hc
    obtain ⟨hcx, hcb, hcxb⟩ := hc
    have hy := List.isChain_cons.mp hcb
    rw [List.append_assoc, List.isChain_append]
    refine ⟨hcx, ?_, ?_⟩
    · simp only [splitBlock, List.cons_append, List.nil_append, List.isChain_cons]
      refine ⟨fun d _ => Or.inl trivial, fun d hd => ?_, hy.2⟩
      have := hy.1 d hd
      rw [hfree] at this
      simpa using this
    · intro a ha d hd
      simp only [splitBlock, List.cons_append, List.head?_cons, Option.mem_some_iff] at hd
      subst hd
      exact Or.inr rfl

/-! ## `kmalloc` -/

/-- The test of `kmalloc`'s loop, on the block list. -/
def Blk.fits (len : Nat) (b : Blk) : Bool :=
  decide (b.used = slobFree) && decide (b.len > len)

theorem findFit_rep (h : Rep s bs) (hi : HeapInv A.base bs) (len : Nat) :
    findFit s len = some ((bs.find? (Blk.fits len)).map Blk.node) := by
  unfold findFit
  rw [h.ring.scan _ (by simpa using hi.length_lt), List.find?_map]
  congr 1
  congr 1
  refine List.find?_congr fun b hb => ?_
  simp only [Function.comp, Blk.node, fits, Blk.fits, h.fields b hb, Blk.fields]

/-- `kmalloc` when no free block of the list is longer than the request. -/
theorem kmalloc_none {size : Nat} (h : Rep s bs) (hi : HeapInv A.base bs)
    (hf : bs.find? (Blk.fits (requestLen size)) = none) : kmalloc s size = .ok (s, 0) := by
  unfold kmalloc
  simp only [findFit_rep h hi, hf, Option.map_none]
  by_cases he : listEmpty s.links slobHead
  · rw [if_pos he]
  · rw [if_neg he]

/-- `kmalloc` when `b` is the first free block of the list that is longer than the request. -/
theorem kmalloc_some {size : Nat} (h : Rep s bs) (hi : HeapInv A.base bs)
    (hf : bs.find? (Blk.fits (requestLen size)) = some b) :
    kmalloc s size = .ok (splitChunk s b.addr (requestLen size), b.addr + 12) := by
  have hb := List.mem_of_find?_eq_some hf
  have hbd := hi.bounds hb
  have hne : listEmpty s.links slobHead = false := by
    rw [Bool.eq_false_iff, ne_eq, listEmpty_iff h.ring, List.map_eq_nil_iff]
    rintro rfl
    exact absurd hb List.not_mem_nil
  unfold kmalloc
  simp only [hne, findFit_rep h hi, hf, Option.map_some, Blk.node, Bool.false_eq_true, if_false]
  rw [sizeofSlobBlock, u32_of_lt (by omega)]

/-- **What `kmalloc` does.** Either no free block is longer than the request and nothing changes,
or the first such block `b` is taken: split, and then marked used, when it has more than `44` bytes
to spare; left as it was, still marked free, when it has not. -/
theorem kmalloc_cases (h : Rep s bs) (hi : HeapInv A.base bs) (size : Nat) :
    (kmalloc s size = .ok (s, 0) ∧ bs.find? (Blk.fits (requestLen size)) = none) ∨
    ∃ xs b ys, bs = xs ++ b :: ys ∧ b.used = slobFree ∧ requestLen size < b.len ∧
      bs.find? (Blk.fits (requestLen size)) = some b ∧
      kmalloc s size = .ok (splitChunk s b.addr (requestLen size), b.addr + 12) := by
  cases hf : bs.find? (Blk.fits (requestLen size)) with
  | none => exact Or.inl ⟨kmalloc_none h hi hf, rfl⟩
  | some b =>
    obtain ⟨hfit, xs, ys, rfl, -⟩ := List.find?_eq_some_iff_append.mp hf
    simp only [Blk.fits, Bool.and_eq_true, decide_eq_true_eq] at hfit
    exact Or.inr ⟨xs, b, ys, rfl, hfit.1, hfit.2, rfl, kmalloc_some h hi hf⟩

/-! ## `kfree` -/

/-- What `glue_chunk`'s second half leaves of a free block and the blocks after it. -/
def glueRight (b : Blk) : List Blk → List Blk
  | [] => [b]
  | n :: ys =>
    if n.used = slobFree then { b with len := b.len + (n.len + sizeofSlobBlock) } :: ys
    else b :: n :: ys

/-- What freeing the block `b` between `xs` and `ys` leaves. -/
def release (xs : List Blk) (b : Blk) (ys : List Blk) : List Blk :=
  match xs.getLast? with
  | some p =>
    if p.used = slobFree then
      xs.dropLast ++ glueRight { p with len := p.len + (b.len + sizeofSlobBlock) } ys
    else xs ++ glueRight { b with used := slobFree } ys
  | none => glueRight { b with used := slobFree } ys

theorem release_nil (b : Blk) (ys : List Blk) :
    release [] b ys = glueRight { b with used := slobFree } ys := rfl

theorem release_concat (zs : List Blk) (p b : Blk) (ys : List Blk) :
    release (zs ++ [p]) b ys =
      if p.used = slobFree then
        zs ++ glueRight { p with len := p.len + (b.len + sizeofSlobBlock) } ys
      else zs ++ [p] ++ glueRight { b with used := slobFree } ys := by
  simp [release]

/-- Two neighbours glued together tile what they tiled apart. -/
theorem tiles_glue {lo hi : Nat} {p : Blk} (u : Bool)
    (h : Tiles lo hi ((xs ++ p :: b :: ys).map Blk.seg)) :
    Tiles lo hi ((xs ++ ⟨p.addr, u, p.len + (b.len + sizeofSlobBlock)⟩ :: ys).map Blk.seg) := by
  rw [List.map_append, tiles_append] at h ⊢
  obtain ⟨mid, hx, hp, hb, hy⟩ := h
  refine ⟨mid, hx, hp, ?_⟩
  simp only [Blk.seg, sizeofSlobBlock] at hy ⊢
  rwa [show mid + (12 + (p.len + (b.len + 12))) = mid + (12 + p.len) + (12 + b.len) by omega]

/-- `glue_chunk`'s second half. It reads the next field through `le`, which need only still point
where the block's own field points. -/
theorem glueNext_rep {le : SlobNode} (h : Rep s (xs ++ b :: ys))
    (ht : Tiles A.base (A.base + slobArea) ((xs ++ b :: ys).map Blk.seg))
    (hle : s.links.next le = s.links.next b.node) :
    Rep (glueNext s le b.addr) (xs ++ glueRight b ys) := by
  unfold glueNext
  rw [hle, h.next]
  cases ys with
  | nil => simpa [glueRight] using h
  | cons n ys =>
    have hn : s.block n.addr = n.fields := h.fields n (by simp)
    have hb : s.block b.addr = b.fields := h.fields b (by simp)
    simp only [List.map_cons, List.head?_cons, Option.getD_some, Blk.node, hn, hb, Blk.fields,
      glueRight]
    by_cases hfree : n.used = slobFree
    · rw [if_pos hfree, if_pos hfree]
      have hsum : b.len + (n.len + 12) < 2 ^ 31 := by
        have h1 := ht.bounds (List.mem_map_of_mem (f := Blk.seg) (by simp : b ∈ xs ++ b :: n :: ys))
        have h2 := ht.bounds (List.mem_map_of_mem (f := Blk.seg) (by simp : n ∈ xs ++ b :: n :: ys))
        have h3 := ht.pairwise
        rw [List.map_append, List.map_cons, List.map_cons, List.pairwise_append,
          List.pairwise_cons] at h3
        have h4 := h3.2.1.1 n.seg (by simp)
        have harea : slobArea = 4194304 := by decide
        simp only [Blk.seg, sizeofSlobBlock] at h1 h2 h4
        omega
      have hlen : u32 (b.len + u32 (n.len + sizeofSlobBlock)) = b.len + (n.len + 12) := by
        rw [sizeofSlobBlock, u32_of_lt (n := n.len + 12) (by omega), u32_of_lt (by omega)]
      rw [hlen]
      have h1 := h.setLength (n := b.len + (n.len + 12)) hsum
      simpa [Blk.node, sizeofSlobBlock] using h1.listDel_behind
    · rw [if_neg hfree, if_neg hfree]
      exact h

/-- **`kfree` of a used block of the list is `release`.** -/
theorem kfree_rep (h : Rep s (xs ++ b :: ys)) (hi : HeapInv A.base (xs ++ b :: ys))
    (hused : b.used = slobUsed) : Rep (kfree s (b.addr + 12)) (release xs b ys) := by
  have hbd := hi.bounds (b := b) (by simp)
  have hb : s.block b.addr = b.fields := h.fields b (by simp)
  have haddr : u32Sub (b.addr + 12) sizeofSlobBlock = b.addr := by
    rw [sizeofSlobBlock, u32Sub_of_le (by omega) (by omega)]
    omega
  have hall : (s.block b.addr).allocated = slobUsed := by rw [hb]; exact hused
  unfold kfree
  rw [haddr, if_neg (by rw [hall]; simp)]
  have hrep := h.setAllocated slobFree
  have htile : Tiles A.base (A.base + slobArea)
      ((xs ++ { b with used := slobFree } :: ys).map Blk.seg) := by
    simpa [Blk.seg] using hi.tiles
  set s1 := s.setAllocated b.addr slobFree with hs1
  unfold glueChunk gluePrev
  have hprev := hrep.prev
  rw [Blk.node] at hprev
  rw [hprev]
  rcases List.eq_nil_or_concat xs with rfl | ⟨zs, p, rfl⟩
  · -- `b` is the first block: nothing before it
    rw [release_nil]
    exact glueNext_rep hrep htile rfl
  · rw [List.concat_eq_append] at *
    have hp : s1.block p.addr = p.fields := hrep.fields p (by simp)
    have hb1 : s1.block b.addr = ⟨slobFree, b.len⟩ :=
      hrep.fields { b with used := slobFree } (by simp)
    rw [release_concat]
    simp only [List.map_append, List.map_cons, List.map_nil, List.getLast?_append,
      List.getLast?_singleton, Option.some_or, Option.getD_some, Blk.node, hp, hb1, Blk.fields]
    by_cases hfree : p.used = slobFree
    · rw [if_pos hfree, if_pos hfree]
      have hsum : p.len + (b.len + 12) < 2 ^ 31 := by
        have h1 := hi.bounds (b := p) (by simp)
        have h2 := hi.ordered
        rw [List.append_assoc, List.pairwise_append] at h2
        have h3 := (List.pairwise_cons.mp h2.2.1).1 b (by simp)
        omega
      have hlen : u32 (p.len + u32 (b.len + sizeofSlobBlock)) = p.len + (b.len + 12) := by
        rw [sizeofSlobBlock, u32_of_lt (n := b.len + 12) (by omega), u32_of_lt (by omega)]
      rw [hlen]
      have hrep' : Rep s1 (zs ++ p :: { b with used := slobFree } :: ys) := by simpa using hrep
      have h1 := hrep'.setLength (n := p.len + (b.len + 12)) hsum
      have h2 := h1.listDel_behind
      refine glueNext_rep (A := A) h2 ?_ ?_
      · exact tiles_glue _ (by simpa using hi.tiles)
      · -- the list field just deleted still points where the glued block now points
        have hnext : s1.links.next (.entry b.addr) = (ys.map Blk.node).head?.getD slobHead :=
          Rep.next (b := { b with used := slobFree }) hrep
        have hne : (Node.entry b.addr : SlobNode) ≠ .entry p.addr := by
          have := hrep'.addr_nodup
          simp only [List.map_append, List.map_cons, List.nodup_append, List.nodup_cons,
            List.mem_cons, not_or] at this
          intro e
          exact this.2.1.1.1 (Node.entry.inj e).symm
        have hpprev : s1.links.prev (.entry b.addr) = .entry p.addr := by
          have := hrep.prev
          simpa [Blk.node] using this
        rw [h2.next, ← hnext]
        simp only [Hurlex.listDel, listDelBetween, Heap.setLength, Blk.node, hpprev,
          Links.setNext_next, Links.setPrev_next, Function.update_of_ne hne]
    · rw [if_neg hfree, if_neg hfree]
      exact glueNext_rep hrep htile rfl

/-- `kfree` of a free block of the list changes nothing. -/
theorem kfree_free (h : Rep s (xs ++ b :: ys)) (hi : HeapInv A.base (xs ++ b :: ys))
    (hfree : b.used = slobFree) : kfree s (b.addr + 12) = s := by
  have hbd := hi.bounds (b := b) (by simp)
  have haddr : u32Sub (b.addr + 12) sizeofSlobBlock = b.addr := by
    rw [sizeofSlobBlock, u32Sub_of_le (by omega) (by omega)]
    omega
  have hall : (s.block b.addr).allocated = slobFree := by
    rw [h.fields b (by simp)]
    exact hfree
  unfold kfree
  rw [haddr]
  exact if_pos (by rw [hall]; simp)

/-- Gluing a free block to a free block after it: tiles stay tiles, and the result is coalesced
when the block before is in use. -/
theorem glueRight_inv (ht : Tiles A.base (A.base + slobArea) ((xs ++ b :: ys).map Blk.seg))
    (hx : xs.IsChain fun a b => a.used = slobUsed ∨ b.used = slobUsed)
    (hy : ys.IsChain fun a b => a.used = slobUsed ∨ b.used = slobUsed)
    (hlast : ∀ p ∈ xs.getLast?, p.used = slobUsed) : HeapInv A.base (xs ++ glueRight b ys) := by
  cases ys with
  | nil =>
    refine ⟨ht, ?_⟩
    rw [List.isChain_append]
    exact ⟨hx, List.isChain_singleton b, fun p hp _ _ => Or.inl (hlast p hp)⟩
  | cons n ys =>
    have hn := List.isChain_cons.mp hy
    rw [glueRight]
    by_cases hfree : n.used = slobFree
    · rw [if_pos hfree]
      refine ⟨tiles_glue b.used ht, ?_⟩
      rw [List.isChain_append, List.isChain_cons]
      refine ⟨hx, ⟨fun d hd => ?_, hn.2⟩, fun p hp _ _ => Or.inl (hlast p hp)⟩
      have := hn.1 d hd
      rw [hfree] at this
      exact Or.inr (this.resolve_left (by simp))
    · rw [if_neg hfree]
      have hused : n.used = slobUsed := by simpa using hfree
      refine ⟨ht, ?_⟩
      rw [List.isChain_append, List.isChain_cons_cons]
      exact ⟨hx, ⟨Or.inr hused, hy⟩, fun p hp _ _ => Or.inl (hlast p hp)⟩

/-- **Freeing keeps the heap invariant.** -/
theorem release_inv (hi : HeapInv A.base (xs ++ b :: ys)) :
    HeapInv A.base (release xs b ys) := by
  obtain ⟨ht, hc⟩ := hi
  rw [List.isChain_append, List.isChain_cons] at hc
  obtain ⟨hx, ⟨-, hy⟩, -⟩ := hc
  have ht' : Tiles A.base (A.base + slobArea)
      ((xs ++ { b with used := slobFree } :: ys).map Blk.seg) := by
    simpa [Blk.seg] using ht
  rcases List.eq_nil_or_concat xs with rfl | ⟨zs, p, rfl⟩
  · rw [release_nil]
    refine glueRight_inv ht' List.isChain_nil hy ?_
    simp
  · rw [List.concat_eq_append] at *
    rw [release_concat]
    by_cases hfree : p.used = slobFree
    · rw [if_pos hfree]
      rw [List.isChain_append] at hx
      refine glueRight_inv (tiles_glue p.used (by simpa using ht)) hx.1 hy fun q hq => ?_
      -- the block before the glued pair was next to the free `p`
      have := hx.2.2 q hq p (by simp)
      rw [hfree] at this
      exact this.resolve_right (by simp)
    · rw [if_neg hfree]
      refine glueRight_inv ht' hx hy fun q hq => ?_
      have : q = p := by simpa using hq.symm
      simpa [this] using hfree

end Steps

end Hurlex.Slob
