import Hurlex.Mm.SlobRun

/-!
# Laws of `kmalloc` and `kfree`

In a reachable heap no two neighbours are free, so the used blocks alone determine the whole block
list (`HeapInv.ext`, from `tiles_ext`). What an operation does to the list is therefore known from
what it does to the used blocks: a split adds one, a free takes one away and nothing else
(`release_filter`). Hence:

* `kfree_kmalloc`: a `kfree` right after the `kmalloc` that returned the address gives back the
  block list, whether the block was split or not.
* `kfree_order`: blocks freed in any order leave the same block list, though the block that
  survives a glueing is another one in each order.

`kmalloc` compares and cuts with `requestLen size`, a 32-bit sum. It wraps for the last
`sizeof(slob_block_t)` sizes: a request of nearly 4 GB is then served with a block of at most 11
bytes. `kmalloc_enough_iff` is the exact condition under which a request gets what it asked for.
-/

namespace Hurlex.Slob

open Lib

variable {A : Area} {s s' : Heap} {bs cs xs ys : List Blk} {b : Blk}

/-! ## The used blocks determine the list -/

/-- The used blocks of a block list. -/
def usedBlocks (bs : List Blk) : List Blk := bs.filter Blk.used

theorem mem_usedBlocks : b ∈ usedBlocks bs ↔ b ∈ bs ∧ b.used = slobUsed := List.mem_filter

theorem usedBlocks_append : usedBlocks (xs ++ ys) = usedBlocks xs ++ usedBlocks ys :=
  List.filter_append ..

theorem usedBlocks_free (h : b.used = slobFree) : usedBlocks (b :: ys) = usedBlocks ys :=
  List.filter_cons_of_neg (by simp [h])

theorem usedBlocks_used (h : b.used = slobUsed) : usedBlocks (b :: ys) = b :: usedBlocks ys :=
  List.filter_cons_of_pos h

/-- **The used blocks determine the block list.** -/
theorem HeapInv.ext {base : Nat} (hb : HeapInv base bs) (hc : HeapInv base cs)
    (h : usedBlocks bs = usedBlocks cs) : bs = cs := by
  refine tiles_ext (fun a => ?_) (fun a b hseg hused => ?_) hb.tiles hc.tiles hb.coalesced
    hc.coalesced h
  · exact Nat.add_pos_left (by decide) _
  · obtain ⟨a₁, a₂, a₃⟩ := a
    obtain ⟨b₁, b₂, b₃⟩ := b
    simp only [Blk.seg, Prod.mk.injEq, Nat.add_left_cancel_iff] at hseg hused
    obtain ⟨rfl, rfl⟩ := hseg
    rw [hused]

theorem usedBlocks_glueRight (h : b.used = slobFree) :
    usedBlocks (glueRight b ys) = usedBlocks ys := by
  cases ys with
  | nil => exact usedBlocks_free h
  | cons n ys =>
    rw [glueRight]
    split
    · rename_i hn
      rw [usedBlocks_free hn]
      exact usedBlocks_free h
    · exact usedBlocks_free h

/-- **A free takes its block away from the used blocks, and no other.** -/
theorem release_filter : usedBlocks (release xs b ys) = usedBlocks (xs ++ ys) := by
  rcases List.eq_nil_or_concat xs with rfl | ⟨zs, p, rfl⟩
  · exact usedBlocks_glueRight rfl
  · rw [List.concat_eq_append, release_concat]
    split
    · rename_i hp
      have hsplit : usedBlocks (zs ++ [p] ++ ys) = usedBlocks zs ++ usedBlocks ys := by
        rw [List.append_assoc, usedBlocks_append, List.singleton_append, usedBlocks_free hp]
      rw [usedBlocks_append, hsplit, usedBlocks_glueRight (by exact hp)]
    · have hsplit : usedBlocks (zs ++ [p] ++ ys) = usedBlocks (zs ++ [p]) ++ usedBlocks ys :=
        usedBlocks_append
      rw [usedBlocks_append, hsplit, usedBlocks_glueRight (by rfl)]

/-- The block the memory shows at an address. -/
def blkAt (s : Heap) (a : Nat) : Blk := ⟨a, (s.block a).allocated, (s.block a).length⟩

theorem Rep.eq_blkAt (h : Rep s bs) (hb : b ∈ bs) : blkAt s b.addr = b := by
  rw [blkAt, h.fields b hb]
  rfl

theorem Rep.block (h : Rep s (xs ++ b :: ys)) : s.block b.addr = b.fields :=
  h.fields b (by simp)

theorem Rep.block_mk {a len : Nat} {used : Bool} (h : Rep s (xs ++ ⟨a, used, len⟩ :: ys)) :
    s.block a = ⟨used, len⟩ :=
  h.block

theorem Rep.onList (h : Rep s bs) (hb : b ∈ bs) : s.links.OnList slobHead (.entry b.addr) :=
  h.ring.onList_iff.mpr (List.mem_map_of_mem (f := Blk.node) hb)

/-- **The memory holds one block list only.** -/
theorem Rep.unique (hb : Rep s bs) (hc : Rep s cs) : bs = cs := by
  have read : ∀ {l : List Blk}, Rep s l → l = (l.map Blk.addr).map (blkAt s) := by
    intro l h
    rw [List.map_map]
    exact (List.map_id l).symm.trans (List.map_congr_left fun b hb => (h.eq_blkAt hb).symm)
  have hnodes : (bs.map Blk.addr).map (fun a => (Node.entry a : SlobNode)) =
      (cs.map Blk.addr).map fun a => (Node.entry a : SlobNode) := by
    rw [List.map_map, List.map_map]
    exact hb.ring.unique hc.ring
  rw [read hb, read hc, List.map_injective_iff.mpr (fun _ _ => Node.entry.inj) hnodes]

theorem Reach.inv (hs : Reach A s) (h : Rep s bs) : HeapInv A.base bs := by
  obtain ⟨cs, hrep, hi⟩ := heap_invariant hs
  rwa [h.unique hrep]

/-! ## `kfree` undoes `kmalloc` -/

theorem splitBlock_append (len : Nat) : xs ++ splitBlock b len ++ ys =
    xs ++ ⟨b.addr, slobUsed, len⟩ :: ⟨b.addr + 12 + len, slobFree, b.len - len - 12⟩ :: ys := by
  simp [splitBlock, sizeofSlobBlock]

/-- A used block freed right after it was cut from the free block `b` gives `b` back. -/
theorem release_splitBlock {len : Nat} (hi : HeapInv A.base (xs ++ b :: ys))
    (hfree : b.used = slobFree) (hlen : len + 44 < b.len) :
    release xs ⟨b.addr, slobUsed, len⟩
      (⟨b.addr + 12 + len, slobFree, b.len - len - 12⟩ :: ys) = xs ++ b :: ys := by
  have hsplit := splitBlock_inv hi hfree hlen
  rw [splitBlock_append] at hsplit
  refine (release_inv hsplit).ext hi ?_
  rw [release_filter, usedBlocks_append, usedBlocks_append, usedBlocks_free hfree,
    usedBlocks_free rfl]

/-- **`kfree` undoes `kmalloc`.** In every reachable heap a request and a free of the address it
returned, one right after the other, leave the block list as it was. -/
theorem kfree_kmalloc (hs : Reach A s) (h : Rep s bs) {size a : Nat}
    (hk : kmalloc s size = .ok (s', a)) (ha : a ≠ 0) : Rep (kfree s' a) bs := by
  have hi := hs.inv h
  rcases kmalloc_cases h hi size with ⟨hk', -⟩ | ⟨xs, b, ys, rfl, hfree, hfit, -, hk'⟩
  · rw [hk'] at hk
    cases hk
    exact absurd rfl ha
  · rw [hk'] at hk
    cases hk
    by_cases hlen : requestLen size + 44 < b.len
    · have hsplit := splitChunk_rep h hi hlen
      have hinv := splitBlock_inv hi hfree hlen
      rw [splitBlock_append] at hsplit hinv
      have hback := kfree_rep hsplit hinv rfl
      rwa [release_splitBlock hi hfree hlen] at hback
    · -- the block was handed out unsplit, and still reads free
      rw [splitChunk_keep hi h.block hfit (by omega), kfree_free h hi hfree]
      exact h

/-- A request of 100 bytes right after `slob_init`, and its free. -/
theorem kfree_kmalloc_heap6M :
    Rep (kfree (splitChunk heap6M (initBlock area6M).addr (requestLen 100)) 0xC060000C)
      [initBlock area6M] := by
  have h₀ := slobInit_rep bootMemory_ring slobInit_heap6M
  have k₀ := kmalloc_some h₀ (initBlock_inv area6M) find_initBlock
  exact kfree_kmalloc (.init bootMemory_ring slobInit_heap6M) h₀ k₀ (by decide)

/-! ## The order of frees -/

theorem setLength_allocated (s : Heap) (a n c : Nat) :
    ((s.setLength a n).block c).allocated = (s.block c).allocated := by
  by_cases h : c = a
  · rw [h, s.setLength_self]
  · rw [s.setLength_of_ne h]

/-- Gluing writes no `allocated` field. -/
theorem glueChunk_allocated (s : Heap) (a c : Nat) :
    ((glueChunk s a).block c).allocated = (s.block c).allocated := by
  have hprev : ((gluePrev s a).1.block c).allocated = (s.block c).allocated := by
    unfold gluePrev
    split
    · rfl
    · split
      · exact setLength_allocated ..
      · rfl
  rw [← hprev]
  unfold glueChunk glueNext
  dsimp only
  split
  · rfl
  · split
    · exact setLength_allocated ..
    · rfl

/-- A header that reads free goes on to read free, on the list or not. -/
theorem kfree_stays_free {a c : Nat} (h : (s.block c).allocated = slobFree) :
    ((kfree s a).block c).allocated = slobFree := by
  unfold kfree
  dsimp only
  split
  · exact h
  · rw [glueChunk_allocated]
    by_cases hc : c = u32Sub a sizeofSlobBlock
    · rw [hc, s.setAllocated_self]
    · rwa [s.setAllocated_of_ne hc]

/-- The header of the freed block reads free. -/
theorem kfree_reads_free (s : Heap) (a : Nat) :
    ((kfree s a).block (u32Sub a sizeofSlobBlock)).allocated = slobFree := by
  unfold kfree
  dsimp only
  split
  · rename_i h
    simpa using h
  · rw [glueChunk_allocated, s.setAllocated_self]

/-- The blocks at the addresses `l` are freed one after the other. -/
def kfreeAll (s : Heap) (l : List Nat) : Heap :=
  l.foldl (fun s block => kfree s (block + sizeofSlobBlock)) s

/-- What `kfree` finds at a block it is still to free: a used block of the list, or a header that
reads free, perhaps of a block that has been glued into another since. -/
def Freeable (s : Heap) (bs : List Blk) (b : Blk) : Prop :=
  (b ∈ bs ∧ b.used = slobUsed) ∨ (s.block b.addr).allocated = slobFree

/-- One free of the run: its block leaves the used blocks, and the blocks still to free stay so. -/
theorem kfree_step (h : Rep s bs) (hi : HeapInv A.base bs) (hb : Freeable s bs b)
    (hbd : b.addr + 12 < 2 ^ 32) :
    ∃ cs, Rep (kfree s (b.addr + sizeofSlobBlock)) cs ∧ HeapInv A.base cs ∧
      usedBlocks cs = (usedBlocks bs).filter (fun c => decide (c ≠ b)) ∧
      ∀ c, Freeable s bs c → Freeable (kfree s (b.addr + sizeofSlobBlock)) cs c := by
  have haddr : u32Sub (b.addr + sizeofSlobBlock) sizeofSlobBlock = b.addr := by
    rw [sizeofSlobBlock, u32Sub_of_le (by omega) (by omega)]
    omega
  by_cases hread : (s.block b.addr).allocated = slobFree
  · have hkeep : kfree s (b.addr + sizeofSlobBlock) = s := by
      unfold kfree
      rw [haddr]
      exact if_pos (by rw [hread]; simp)
    rw [hkeep]
    refine ⟨bs, h, hi, (List.filter_eq_self.mpr fun c hc => ?_).symm, fun c hc => hc⟩
    obtain ⟨hc, hu⟩ := mem_usedBlocks.mp hc
    rw [decide_eq_true_iff]
    rintro rfl
    rw [h.fields c hc] at hread
    exact absurd (hread.symm.trans hu) (by decide)
  · obtain ⟨hmem, hu⟩ := hb.resolve_right hread
    obtain ⟨xs, ys, rfl⟩ := List.append_of_mem hmem
    refine ⟨release xs b ys, kfree_rep h hi hu, release_inv hi, ?_, fun c hc => ?_⟩
    · have hnd := h.addr_nodup
      rw [List.map_append, List.map_cons, List.nodup_middle, List.nodup_cons,
        ← List.map_append] at hnd
      have hne : ∀ c ∈ xs ++ ys, c ≠ b := by
        rintro c hc rfl
        exact hnd.1 (List.mem_map_of_mem hc)
      have hkeep : (usedBlocks (xs ++ ys)).filter (fun c => decide (c ≠ b)) =
          usedBlocks (xs ++ ys) :=
        List.filter_eq_self.mpr fun c hc =>
          decide_eq_true (hne c (mem_usedBlocks.mp hc).1)
      have hcons : usedBlocks (b :: ys) = b :: usedBlocks ys := usedBlocks_used hu
      have hsplit : usedBlocks (xs ++ ys) = usedBlocks xs ++ usedBlocks ys := usedBlocks_append
      rw [release_filter, ← hkeep, hsplit, usedBlocks_append, hcons, List.filter_append,
        List.filter_append, List.filter_cons_of_neg (by simp)]
    · by_cases hcb : c = b
      · subst hcb
        have := kfree_reads_free s (c.addr + sizeofSlobBlock)
        rw [haddr] at this
        exact Or.inr this
      · refine hc.imp (fun hc => ⟨mem_release ?_ hc.2, hc.2⟩) kfree_stays_free
        have := hc.1
        simp only [List.mem_append, List.mem_cons, hcb, false_or] at this ⊢
        exact this

/-- **A run of frees takes exactly its blocks away from the used blocks.** -/
theorem kfreeAll_rep : ∀ {l : List Blk} {s : Heap} {bs : List Blk}, Rep s bs →
    HeapInv A.base bs → (∀ b ∈ l, Freeable s bs b ∧ b.addr + 12 < 2 ^ 32) →
    ∃ cs, Rep (kfreeAll s (l.map Blk.addr)) cs ∧ HeapInv A.base cs ∧
      usedBlocks cs = (usedBlocks bs).filter fun c => decide (c ∉ l)
  | [], s, bs, h, hi, _ => ⟨bs, h, hi, (List.filter_eq_self.mpr fun _ _ => by simp).symm⟩
  | b :: l, s, bs, h, hi, hl => by
    obtain ⟨hb, hbd⟩ := hl b List.mem_cons_self
    obtain ⟨bs₁, h₁, hi₁, hu₁, hstay⟩ := kfree_step h hi hb hbd
    have hl₁ : ∀ c ∈ l, Freeable (kfree s (b.addr + sizeofSlobBlock)) bs₁ c ∧
        c.addr + 12 < 2 ^ 32 := by
      intro c hc
      obtain ⟨hf, hcd⟩ := hl c (List.mem_cons_of_mem _ hc)
      exact ⟨hstay c hf, hcd⟩
    obtain ⟨cs, hcs, hics, hucs⟩ := kfreeAll_rep h₁ hi₁ hl₁
    refine ⟨cs, hcs, hics, ?_⟩
    rw [hucs, hu₁, List.filter_filter]
    refine List.filter_congr fun c _ => ?_
    simp only [List.mem_cons, not_or, Bool.decide_and, Bool.and_comm]

/-- Two runs of frees with the same blocks end in the same block list. -/
theorem kfreeAll_perm (hs : Reach A s) {l l' : List Nat} (hp : l.Perm l')
    (hl : ∀ a ∈ l, s.links.OnList slobHead (.entry a)) :
    ∃ cs, Rep (kfreeAll s l) cs ∧ Rep (kfreeAll s l') cs := by
  obtain ⟨bs, h, hi⟩ := heap_invariant hs
  have hmem : ∀ a ∈ l, ∃ b ∈ bs, b.addr = a := by
    intro a ha
    obtain ⟨b, hb, e⟩ := List.mem_map.mp (h.ring.onList_iff.mp (hl a ha))
    exact ⟨b, hb, Node.entry.inj e⟩
  have run : ∀ k : List Nat, k ⊆ l → ∃ cs, Rep (kfreeAll s k) cs ∧ HeapInv A.base cs ∧
      usedBlocks cs = (usedBlocks bs).filter fun c => decide (c ∉ k.map (blkAt s)) := by
    intro k hk
    have hblk : ∀ b ∈ k.map (blkAt s), Freeable s bs b ∧ b.addr + 12 < 2 ^ 32 := by
      intro c hc
      obtain ⟨a, ha, rfl⟩ := List.mem_map.mp hc
      obtain ⟨b, hb, rfl⟩ := hmem a (hk ha)
      rw [h.eq_blkAt hb]
      have hbd := hi.bounds hb
      refine ⟨?_, by omega⟩
      by_cases hu : b.used = slobUsed
      · exact Or.inl ⟨hb, hu⟩
      · have hread : (s.block b.addr).allocated = b.used := by
          rw [h.fields b hb]
          rfl
        exact Or.inr (by simpa [hread] using hu)
    have haddrs : (k.map (blkAt s)).map Blk.addr = k := by
      rw [List.map_map]
      exact List.map_id k
    have := kfreeAll_rep h hi hblk
    rwa [haddrs] at this
  obtain ⟨cs, hcs, hics, hucs⟩ := run l (List.Subset.refl l)
  obtain ⟨ds, hds, hids, huds⟩ := run l' hp.symm.subset
  have hfilter : usedBlocks cs = usedBlocks ds := by
    rw [hucs, huds]
    refine List.filter_congr fun c _ => ?_
    rw [decide_eq_decide, (hp.map (blkAt s)).mem_iff]
  refine ⟨cs, hcs, ?_⟩
  rw [hics.ext hids hfilter]
  exact hds

/-- **The order of frees does not matter.** In every reachable heap two used blocks freed in either
order leave the same block list, and so do any blocks of the list freed in any two orders. -/
theorem kfree_order (hs : Reach A s) :
    (∀ a b, a ≠ b → s.links.OnList slobHead (.entry a) → s.links.OnList slobHead (.entry b) →
      (s.block a).allocated = slobUsed → (s.block b).allocated = slobUsed →
      ∃ cs, Rep (kfree (kfree s (a + sizeofSlobBlock)) (b + sizeofSlobBlock)) cs ∧
        Rep (kfree (kfree s (b + sizeofSlobBlock)) (a + sizeofSlobBlock)) cs) ∧
    ∀ l l', l.Perm l' → (∀ a ∈ l, s.links.OnList slobHead (.entry a)) →
      ∃ cs, Rep (kfreeAll s l) cs ∧ Rep (kfreeAll s l') cs := by
  refine ⟨fun a b _ ha hb _ _ => ?_, fun l l' hp hl => kfreeAll_perm hs hp hl⟩
  refine kfreeAll_perm hs (List.Perm.swap b a [] : [a, b].Perm [b, a]) fun c hc => ?_
  rcases List.mem_pair.mp hc with rfl | rfl
  · exact ha
  · exact hb

/-- Two neighbours, allocated right after `slob_init` and freed in either order. -/
theorem kfree_order_two : ∃ s cs,
    Rep s [⟨0xC0600000, slobUsed, 112⟩, ⟨0xC060007C, slobUsed, 212⟩,
      ⟨0xC060015C, slobFree, 4193944⟩] ∧
    Rep (kfree (kfree s 0xC060000C) 0xC0600088) cs ∧
    Rep (kfree (kfree s 0xC0600088) 0xC060000C) cs := by
  obtain ⟨s₁, k₁, r₁, i₁⟩ := kmalloc_oneUsed
  obtain ⟨s₂, k₂, r₂, -⟩ := kmalloc_twoUsed r₁ i₁
  have h₀ : Reach area6M heap6M := .init bootMemory_ring slobInit_heap6M
  have h₂ : Reach area6M s₂ := (h₀.kmalloc (by decide) k₁).kmalloc (by decide) k₂
  have a₁ := r₂.onList (b := ⟨0xC0600000, slobUsed, 112⟩) (by decide)
  have a₂ := r₂.onList (b := ⟨0xC060007C, slobUsed, 212⟩) (by decide)
  obtain ⟨cs, hab, hba⟩ := (kfree_order h₂).1 0xC0600000 0xC060007C (by decide) a₁ a₂
    (by rw [r₂.fields ⟨0xC0600000, slobUsed, 112⟩ (by decide)]; rfl)
    (by rw [r₂.fields ⟨0xC060007C, slobUsed, 212⟩ (by decide)]; rfl)
  exact ⟨s₂, cs, r₂, hab, hba⟩

/-! ## What a request gets -/

/-- A request that returns an address gets a block of at least `size` bytes, and the bytes from the
address on are the block's. -/
def GetsEnough (s : Heap) (size : Nat) : Prop :=
  ∀ s' a, kmalloc s size = .ok (s', a) → a ≠ 0 →
    size ≤ (s'.block (u32Sub a sizeofSlobBlock)).length ∧
      Seg.cells (a, size) ⊆ (held s' a).cells

theorem requestLen_of_lt {size : Nat} (h : size + 12 < 2 ^ 32) :
    requestLen size = max size 32 + 12 := by
  have hmin : slobMinPart = 32 := rfl
  have hsz : sizeofSlobBlock = 12 := rfl
  unfold requestLen
  by_cases hs : size > slobMinPart
  · rw [if_pos hs, u32_of_lt (by omega)]
    omega
  · rw [if_neg hs, u32_of_lt (by omega)]
    omega

/-- The last twelve sizes wrap. -/
theorem requestLen_of_ge {size : Nat} (hsize : size < 2 ^ 32) (h : 2 ^ 32 ≤ size + 12) :
    requestLen size = size + 12 - 2 ^ 32 := by
  have hmin : slobMinPart = 32 := rfl
  have hsz : sizeofSlobBlock = 12 := rfl
  unfold requestLen u32
  rw [if_pos (by omega)]
  omega

/-- The length the block handed out ends with. -/
theorem splitChunk_length {len : Nat} (h : Rep s (xs ++ b :: ys))
    (hi : HeapInv A.base (xs ++ b :: ys)) (hfit : len < b.len) :
    ((splitChunk s b.addr len).block b.addr).length =
      if len + 44 < b.len then len else b.len := by
  by_cases hlen : len + 44 < b.len
  · have hrep := splitChunk_rep h hi hlen
    rw [splitBlock_append] at hrep
    rw [if_pos hlen, hrep.block_mk]
  · rw [if_neg hlen, splitChunk_keep hi h.block hfit (by omega), h.block]
    rfl

/-- No free block is longer than a request that was refused. -/
theorem refused_le {size a : Nat} (h : Rep s bs)
    (hnone : bs.find? (·.fits (requestLen size)) = none)
    (ha : s.links.OnList slobHead (.entry a)) (hfree : (s.block a).allocated = slobFree) :
    (s.block a).length ≤ requestLen size := by
  obtain ⟨b, hb, e⟩ := List.mem_map.mp (h.ring.onList_iff.mp ha)
  obtain rfl : b.addr = a := Node.entry.inj e
  rw [h.fields b hb] at hfree ⊢
  have hused : b.used = slobFree := hfree
  simpa [Blk.fits, hused, Blk.fields] using List.find?_eq_none.mp hnone b hb

/-- A request that is served gets enough if the block it leaves is long enough. -/
theorem getsEnough_served {size : Nat} (h : Rep s (xs ++ b :: ys))
    (hi : HeapInv A.base (xs ++ b :: ys)) (hfit : requestLen size < b.len)
    (hk : kmalloc s size = .ok (splitChunk s b.addr (requestLen size), b.addr + 12)) :
    GetsEnough s size ↔
      size ≤ if requestLen size + 44 < b.len then requestLen size else b.len := by
  have hbd := hi.bounds (b := b) (by simp)
  have haddr : u32Sub (b.addr + 12) sizeofSlobBlock = b.addr := by
    rw [sizeofSlobBlock, u32Sub_of_le (by omega) (by omega)]
    omega
  rw [← splitChunk_length h hi hfit]
  constructor
  · intro hget
    have hge := (hget _ _ hk (by omega)).1
    rwa [haddr] at hge
  · intro hge s' a hk' ha
    rw [hk] at hk'
    cases hk'
    rw [held, haddr]
    refine ⟨hge, fun p hp => ?_⟩
    rw [Seg.mem_cells] at hp ⊢
    simp only [sizeofSlobBlock]
    omega

/-- **When a request gets enough.** In every reachable heap a 32-bit `size` gets a block at least
that long, or `NULL`, exactly when `size` plus the header does not wrap, or the wrapped sum is no
less than every free block of the list. -/
theorem kmalloc_enough_iff (hs : Reach A s) {size : Nat} (hsize : size < 2 ^ 32) :
    GetsEnough s size ↔ size + 12 < 2 ^ 32 ∨
      ∀ b, s.links.OnList slobHead (.entry b) → (s.block b).allocated = slobFree →
        (s.block b).length ≤ size + 12 - 2 ^ 32 := by
  obtain ⟨bs, h, hi⟩ := heap_invariant hs
  rcases kmalloc_cases h hi size with ⟨hk, hnone⟩ | ⟨xs, b, ys, rfl, hfree, hfit, -, hk⟩
  · -- `NULL`: no free block is longer than the request
    refine iff_of_true ?_ ?_
    · intro s' a hk' ha
      rw [hk] at hk'
      cases hk'
      exact absurd rfl ha
    · by_cases hwrap : size + 12 < 2 ^ 32
      · exact Or.inl hwrap
      · refine Or.inr fun a ha hread => ?_
        rw [← requestLen_of_ge hsize (by omega)]
        exact refused_le h hnone ha hread
  · rw [getsEnough_served h hi hfit hk]
    by_cases hwrap : size + 12 < 2 ^ 32
    · have hreq := requestLen_of_lt hwrap
      refine iff_of_true ?_ (Or.inl hwrap)
      split <;> omega
    · -- the block is longer than the wrapped sum, and cut down to it
      have hreq := requestLen_of_ge hsize (by omega)
      refine iff_of_false ?_ (not_or.mpr ⟨hwrap, fun hshort => ?_⟩)
      · split <;> omega
      · have hb := hshort b.addr (h.onList (by simp)) (by rw [h.block]; exact hfree)
        rw [h.block, ← hreq] at hb
        exact Nat.not_lt_of_le hb hfit

theorem kmalloc_enough_heap6M : GetsEnough heap6M 100 :=
  (kmalloc_enough_iff (.init bootMemory_ring slobInit_heap6M) (by decide)).mpr
    (Or.inl (by decide))

/-- A request for all but twelve bytes of the address space, right after `slob_init`: it asks
`kmalloc`'s loop for a block longer than 0, and gets one of 0 bytes. -/
theorem kmalloc_wraps : Reach area6M heap6M ∧ ¬ GetsEnough heap6M 0xFFFFFFF4 := by
  have h := slobInit_rep bootMemory_ring slobInit_heap6M
  have hi := initBlock_inv area6M
  refine ⟨.init bootMemory_ring slobInit_heap6M, fun hget => ?_⟩
  have hf : [initBlock area6M].find? (Blk.fits (requestLen 0xFFFFFFF4)) =
      some (initBlock area6M) := by decide
  have hlen := (hget _ _ (kmalloc_some h hi hf) (by decide)).1
  have hsplit := @splitChunk_length area6M heap6M [] [] _ (requestLen 0xFFFFFFF4) h hi (by decide)
  have haddr : u32Sub ((initBlock area6M).addr + 12) sizeofSlobBlock = (initBlock area6M).addr := by
    decide
  rw [haddr, hsplit] at hlen
  exact absurd hlen (by decide)

end Hurlex.Slob
