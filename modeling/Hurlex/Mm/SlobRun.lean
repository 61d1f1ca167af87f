import Hurlex.Mm.SlobBlocks

/-!
# Runs of the heap

`Reach A` are the heaps of all call sequences from `slob_init`. Every one of them keeps the heap
invariant (`heap_invariant`), because `kmalloc` and `kfree` do (`kmalloc_inv`, `kfree_inv`).

Tiling the area is not yet exclusive use of it. A client may touch a block from the `kmalloc` that
returned it to the `kfree` that takes it back, so its blocks must stay apart from each other.
`kmalloc` marks a block used only inside `split_chunk`, and `split_chunk` does nothing to a block
with at most `sizeof(slob_block_t) + SLOB_MIN_PART` bytes to spare: such a block is returned while
the list still shows it free (`kmalloc_unsplit`), and the next request of that size gets it again.
Runs in which every allocation splits (`splits`) keep the client's blocks apart
(`split_run_exclusive`).
-/

namespace Hurlex.Slob

open Lib

/-! ## The heap invariant over all runs -/

/-- The heaps of all call sequences from `slob_init`: `kmalloc` of any size, `kfree` of an address
whose block is on the list. `slob_head` starts as `LIST_HEAD` makes it. -/
inductive Reach (A : Area) : Heap → Prop
  | init {s s' : Heap} (hboot : LinkRing s.links slobHead []) (h : slobInit s A.pa = .ok s') :
    Reach A s'
  | kmalloc {s s' : Heap} {size addr : Nat} (hs : Reach A s) (hsize : size < 2 ^ 32)
    (h : kmalloc s size = .ok (s', addr)) : Reach A s'
  | kfree {s : Heap} {block : Nat} (hs : Reach A s) (hb : s.links.OnList slobHead (.entry block)) :
    Reach A (kfree s (block + sizeofSlobBlock))

variable {A : Area} {s s' : Heap} {bs : List Blk}

/-- The block `slob_init` makes of the whole area. -/
def initBlock (A : Area) : Blk := ⟨A.base, slobFree, slobArea - sizeofSlobBlock⟩

theorem slobArea_eq : slobArea = 4194304 := by decide

theorem slobInit_rep (hboot : LinkRing s.links slobHead []) (h : slobInit s A.pa = .ok s') :
    Rep s' [initBlock A] := by
  have hpos : A.pa ≠ 0 := Nat.pos_iff_ne_zero.mp A.pos
  have hbase : paToKa A.pa = A.base := rfl
  have hlen : u32Sub (slobPageCount * pageSize) sizeofSlobBlock % 2 ^ 31 =
      slobArea - sizeofSlobBlock := by decide
  rw [slobInit, slobAllocPages, if_neg hpos, hbase] at h
  obtain rfl := Except.ok.inj h
  constructor
  · have hring : LinkRing (listAdd s.links (.entry A.base) slobHead) slobHead [.entry A.base] :=
      listAdd_ring hboot (by simp)
    simpa [Blk.node, initBlock] using hring
  · intro b hb
    rw [List.mem_singleton.mp hb]
    simp only [initBlock, Heap.setLength_self, Heap.setAllocated_self, hlen, Blk.fields]

theorem initBlock_inv (A : Area) : HeapInv A.base [initBlock A] := by
  refine ⟨⟨rfl, ?_⟩, List.isChain_singleton _⟩
  have := slobArea_eq
  show A.base + (sizeofSlobBlock + (slobArea - sizeofSlobBlock)) = A.base + slobArea
  rw [sizeofSlobBlock]
  omega

/-- **One `kmalloc` keeps the heap invariant.** -/
theorem kmalloc_inv {size addr : Nat} (hrep : Rep s bs) (hi : HeapInv A.base bs)
    (h : kmalloc s size = .ok (s', addr)) : ∃ bs', Rep s' bs' ∧ HeapInv A.base bs' := by
  rcases kmalloc_cases hrep hi size with ⟨hk, -⟩ | ⟨xs, b, ys, rfl, hfree, hfit, -, hk⟩
  · rw [hk] at h
    cases h
    exact ⟨bs, hrep, hi⟩
  · rw [hk] at h
    cases h
    by_cases hlen : requestLen size + 44 < b.len
    · exact ⟨_, splitChunk_rep hrep hi hlen, splitBlock_inv hi hfree hlen⟩
    · rw [splitChunk_keep hi (hrep.fields b (by simp)) hfit (by omega)]
      exact ⟨_, hrep, hi⟩

/-- **One `kfree` of a block of the list keeps the heap invariant.** -/
theorem kfree_inv {block : Nat} (hrep : Rep s bs) (hi : HeapInv A.base bs)
    (hb : s.links.OnList slobHead (.entry block)) :
    ∃ bs', Rep (kfree s (block + sizeofSlobBlock)) bs' ∧ HeapInv A.base bs' := by
  obtain ⟨b, hmem, e⟩ := List.mem_map.mp (hrep.ring.onList_iff.mp hb)
  obtain rfl : b.addr = block := Node.entry.inj e
  obtain ⟨xs, ys, rfl⟩ := List.append_of_mem hmem
  by_cases hfree : b.used = slobFree
  · exact ⟨_, by rw [sizeofSlobBlock, kfree_free hrep hi hfree]; exact hrep, hi⟩
  · exact ⟨_, kfree_rep hrep hi (by simpa using hfree), release_inv hi⟩

theorem heap_invariant (hs : Reach A s) : ∃ bs, Rep s bs ∧ HeapInv A.base bs := by
  induction hs with
  | init hboot h => exact ⟨_, slobInit_rep hboot h, initBlock_inv A⟩
  | kmalloc _ _ h ih =>
    obtain ⟨bs, hrep, hi⟩ := ih
    exact kmalloc_inv hrep hi h
  | kfree _ hb ih =>
    obtain ⟨bs, hrep, hi⟩ := ih
    exact kfree_inv hrep hi hb

/-- With no block in use, the heap is the one block it started as. -/
theorem HeapInv.all_free (hi : HeapInv A.base bs) (hfree : ∀ b ∈ bs, b.used = slobFree) :
    bs = [initBlock A] := by
  have harea := slobArea_eq
  obtain ⟨ht, hc⟩ := hi
  cases bs with
  | nil =>
    have : A.base = A.base + slobArea := ht
    omega
  | cons b bs =>
    cases bs with
    | nil =>
      obtain ⟨addr, used, len⟩ := b
      obtain ⟨h1, h2⟩ := ht
      have h3 : used = slobFree := hfree _ List.mem_cons_self
      have h4 : A.base + (sizeofSlobBlock + len) = A.base + slobArea := h2
      simp only [sizeofSlobBlock] at h4
      simp only [initBlock, sizeofSlobBlock, List.cons.injEq, Blk.mk.injEq, and_true]
      exact ⟨h1, h3, by omega⟩
    | cons c bs =>
      -- two free neighbours
      have h1 := hfree b List.mem_cons_self
      have h2 := hfree c (List.mem_cons_of_mem _ List.mem_cons_self)
      have h3 := (List.isChain_cons_cons.mp hc).1
      rw [h1, h2] at h3
      simp at h3

/-- **The block list of every reachable heap**: in address order, tiling the area, no length past
31 bits, no two free neighbours, a single block when all are free; and the next call returns. -/
theorem reach_block_list (hs : Reach A s) :
    (∃ bs, Rep s bs ∧ bs.Pairwise (fun a b => a.addr < b.addr) ∧
      Tiles A.base (A.base + slobArea) (bs.map Blk.seg) ∧
      (∀ b ∈ bs, b.len < 2 ^ 31) ∧
      bs.IsChain (fun a b => ¬ (a.used = slobFree ∧ b.used = slobFree)) ∧
      ((∀ b ∈ bs, b.used = slobFree) → bs = [initBlock A])) ∧
    ∀ size, ∃ r, kmalloc s size = .ok r := by
  obtain ⟨bs, hrep, hi⟩ := heap_invariant hs
  refine ⟨⟨bs, hrep, ?_, hi.tiles, fun b hb => hi.len_lt hb, ?_, hi.all_free⟩, fun size => ?_⟩
  · exact hi.ordered.imp fun h => by omega
  · refine hi.coalesced.imp fun a b h => ?_
    rintro ⟨ha, hb⟩
    rw [ha, hb] at h
    simp at h
  · rcases kmalloc_cases hrep hi size with ⟨hk, -⟩ | ⟨_, _, _, -, -, -, -, hk⟩
    · exact ⟨_, hk⟩
    · exact ⟨_, hk⟩

/-- An area at 6 MB, as `alloc_pages` might give it. -/
def area6M : Area := ⟨0x600000, by decide, by decide⟩

/-- Memory as it is before `slob_init`: `slob_head` is `LIST_HEAD(slob_head)`. -/
def bootMemory : Heap := ⟨⟨fun x => x, fun x => x⟩, fun _ => ⟨slobFree, 0⟩⟩

/-- The heap right after `slob_init` in `area6M`. -/
def heap6M : Heap :=
  { links := listAdd bootMemory.links (.entry 0xC0600000) slobHead
    block := ((bootMemory.setAllocated 0xC0600000 slobFree).setLength 0xC0600000 4194292).block }

theorem bootMemory_ring : LinkRing bootMemory.links slobHead [] :=
  LinkRing.nil_iff.mpr ⟨rfl, rfl⟩

theorem slobInit_heap6M : slobInit bootMemory area6M.pa = .ok heap6M := rfl

/-- The area after a request for 100 bytes. -/
def oneUsed : List Blk := [⟨0xC0600000, slobUsed, 112⟩, ⟨0xC060007C, slobFree, 4194168⟩]

/-- After another one for 200. -/
def twoUsed : List Blk :=
  [⟨0xC0600000, slobUsed, 112⟩, ⟨0xC060007C, slobUsed, 212⟩, ⟨0xC060015C, slobFree, 4193944⟩]

theorem find_initBlock : [initBlock area6M].find? (Blk.fits (requestLen 100)) =
    some (initBlock area6M) := by decide

theorem find_oneUsed : oneUsed.find? (Blk.fits (requestLen 200)) =
    some ⟨0xC060007C, slobFree, 4194168⟩ := by decide

theorem kmalloc_oneUsed : ∃ s, kmalloc heap6M 100 = .ok (s, 0xC060000C) ∧ Rep s oneUsed ∧
    HeapInv area6M.base oneUsed := by
  have r₀ := slobInit_rep bootMemory_ring slobInit_heap6M
  have i₀ := initBlock_inv area6M
  have e₁ : [] ++ splitBlock (initBlock area6M) (requestLen 100) ++ [] = oneUsed := by decide
  have r₁ := @splitChunk_rep area6M heap6M [] [] _ (requestLen 100) r₀ i₀ (by decide)
  have i₁ := @splitBlock_inv area6M [] [] _ (requestLen 100) i₀ rfl (by decide)
  rw [e₁] at r₁ i₁
  exact ⟨_, kmalloc_some r₀ i₀ find_initBlock, r₁, i₁⟩

theorem kmalloc_twoUsed (r₁ : Rep s oneUsed) (i₁ : HeapInv area6M.base oneUsed) :
    ∃ s', kmalloc s 200 = .ok (s', 0xC0600088) ∧ Rep s' twoUsed ∧ HeapInv area6M.base twoUsed := by
  have e₂ : [⟨0xC0600000, slobUsed, 112⟩] ++
      splitBlock ⟨0xC060007C, slobFree, 4194168⟩ (requestLen 200) ++ [] = twoUsed := by decide
  have r₂ := @splitChunk_rep area6M s [⟨0xC0600000, slobUsed, 112⟩] [] _ (requestLen 200) r₁ i₁
    (by decide)
  have i₂ := @splitBlock_inv area6M [⟨0xC0600000, slobUsed, 112⟩] [] _ (requestLen 200) i₁ rfl
    (by decide)
  rw [e₂] at r₂ i₂
  exact ⟨_, kmalloc_some r₁ i₁ find_oneUsed, r₂, i₂⟩

/-- Two blocks are taken, and the first is given back: it stays apart from the free rest. -/
theorem reach_block_list_freed : ∃ s,
    Rep s [⟨0xC0600000, slobFree, 112⟩, ⟨0xC060007C, slobUsed, 212⟩,
      ⟨0xC060015C, slobFree, 4193944⟩] ∧
    (∃ bs, Rep s bs ∧ bs.Pairwise (fun a b => a.addr < b.addr) ∧
      Tiles area6M.base (area6M.base + slobArea) (bs.map Blk.seg) ∧
      (∀ b ∈ bs, b.len < 2 ^ 31) ∧
      bs.IsChain (fun a b => ¬ (a.used = slobFree ∧ b.used = slobFree)) ∧
      ((∀ b ∈ bs, b.used = slobFree) → bs = [initBlock area6M])) ∧
    ∀ size, ∃ r, kmalloc s size = .ok r := by
  obtain ⟨s₁, k₁, r₁, i₁⟩ := kmalloc_oneUsed
  obtain ⟨s₂, k₂, r₂, i₂⟩ := kmalloc_twoUsed r₁ i₁
  have h₀ : Reach area6M heap6M := .init bootMemory_ring slobInit_heap6M
  have h₂ : Reach area6M s₂ := (h₀.kmalloc (by decide) k₁).kmalloc (by decide) k₂
  have hlist : s₂.links.OnList slobHead (.entry 0xC0600000) :=
    r₂.ring.onList_iff.mpr (by decide)
  have r₃ := @kfree_rep area6M s₂ [] _ _ r₂ i₂ rfl
  exact ⟨_, r₃, reach_block_list (h₂.kfree hlist)⟩

/-! ## Clients -/

/-- The heap and the addresses its clients hold: returned by `kmalloc`, not freed since. -/
structure Client where
  heap : Heap
  live : List Nat

/-- The bytes a client holds with address `a`: the block's header and its `length` bytes. -/
def held (s : Heap) (a : Nat) : Seg :=
  let block := u32Sub a sizeofSlobBlock
  (block, sizeofSlobBlock + (s.block block).length)

/-- **Exclusive use**: no two held blocks share a byte. -/
def Exclusive (c : Client) : Prop :=
  c.live.Pairwise fun a b => Disjoint (held c.heap a).cells (held c.heap b).cells

/-- The runs of the clients from `slob_init` in which every request meets `ok`: they allocate any
size, and free what they hold. -/
inductive Run (A : Area) (ok : Heap → Nat → Bool) : Client → Prop
  | init {s s' : Heap} (hboot : LinkRing s.links slobHead []) (h : slobInit s A.pa = .ok s') :
    Run A ok ⟨s', []⟩
  | kmalloc {c : Client} {s' : Heap} {size addr : Nat} (hc : Run A ok c) (hsize : size < 2 ^ 32)
    (hok : ok c.heap size = true) (h : kmalloc c.heap size = .ok (s', addr)) :
    Run A ok ⟨s', if addr = 0 then c.live else addr :: c.live⟩
  | kfree {c : Client} {addr : Nat} (hc : Run A ok c) (ha : addr ∈ c.live) :
    Run A ok ⟨kfree c.heap addr, c.live.erase addr⟩

theorem Run.kmalloc_live {ok : Heap → Nat → Bool} {c : Client} {size addr : Nat}
    (hc : Run A ok c) (hsize : size < 2 ^ 32) (hok : ok c.heap size = true)
    (h : Slob.kmalloc c.heap size = .ok (s', addr)) (hne : addr ≠ 0) :
    Run A ok ⟨s', addr :: c.live⟩ := by
  have := hc.kmalloc hsize hok h
  rwa [if_neg hne] at this

/-- The block a request of `size` finds, if any, is one `split_chunk` splits. -/
def splits (s : Heap) (size : Nat) : Bool :=
  match findFit s (requestLen size) with
  | some (some (.entry b)) =>
    decide (u32Sub (s.block b).length (requestLen size) > sizeofSlobBlock + slobMinPart)
  | _ => true

/-- The held addresses are used blocks of the list, each held once. -/
structure Holds (bs : List Blk) (live : List Nat) : Prop where
  nodup : live.Nodup
  used : ∀ a ∈ live, ∃ b ∈ bs, b.used = slobUsed ∧ a = b.addr + 12

theorem splits_iff {size : Nat} {b : Blk} (hrep : Rep s bs) (hi : HeapInv A.base bs)
    (hf : bs.find? (Blk.fits (requestLen size)) = some b) :
    splits s size = true ↔ requestLen size + 44 < b.len := by
  have hb := List.mem_of_find?_eq_some hf
  have hbd := hi.bounds hb
  have hfit := List.find?_some hf
  simp only [Blk.fits, Bool.and_eq_true, decide_eq_true_eq] at hfit
  unfold splits
  rw [findFit_rep hrep hi, hf]
  simp only [Option.map_some, Blk.node, hrep.fields b hb, Blk.fields]
  rw [u32Sub_of_le (by omega) (by omega), decide_eq_true_iff]
  simp only [sizeofSlobBlock, slobMinPart]
  omega

/-- A used block other than the one freed is still there after the free. -/
theorem mem_release {xs ys : List Blk} {b c : Blk} (hc : c ∈ xs ++ ys) (hu : c.used = slobUsed) :
    c ∈ release xs b ys := by
  have right : ∀ (d : Blk), c ∈ ys → c ∈ glueRight d ys := by
    intro d hy
    cases ys with
    | nil => exact absurd hy List.not_mem_nil
    | cons n ys =>
      rw [glueRight]
      split
      · rename_i hn
        rcases List.mem_cons.mp hy with rfl | hy
        · rw [hu] at hn
          simp at hn
        · exact List.mem_cons_of_mem _ hy
      · exact List.mem_cons_of_mem _ hy
  rcases List.eq_nil_or_concat xs with rfl | ⟨zs, p, rfl⟩
  · exact right _ (by simpa using hc)
  · rw [List.concat_eq_append] at *
    rw [release_concat]
    split
    · rename_i hp
      simp only [List.mem_append, List.mem_singleton] at hc ⊢
      rcases hc with (hz | rfl) | hy
      · exact Or.inl hz
      · rw [hu] at hp
        simp at hp
      · exact Or.inr (right _ hy)
    · rcases List.mem_append.mp hc with hz | hy
      · exact List.mem_append_left _ hz
      · exact List.mem_append_right _ (right _ hy)

theorem holds_kmalloc {xs ys : List Blk} {b : Blk} {live : List Nat} {len : Nat}
    (hrep : Rep s (xs ++ b :: ys)) (hfree : b.used = slobFree) (h : Holds (xs ++ b :: ys) live) :
    Holds (xs ++ splitBlock b len ++ ys) ((b.addr + 12) :: live) := by
  constructor
  · refine List.nodup_cons.mpr ⟨fun ha => ?_, h.nodup⟩
    obtain ⟨c, hc, hu, e⟩ := h.used _ ha
    have hbc : b.addr = c.addr := by omega
    have : b = c := List.inj_on_of_nodup_map hrep.addr_nodup (by simp) hc hbc
    rw [this, hu] at hfree
    simp at hfree
  · intro a ha
    rcases List.mem_cons.mp ha with rfl | ha
    · exact ⟨⟨b.addr, slobUsed, len⟩, by simp [splitBlock], rfl, rfl⟩
    · obtain ⟨c, hc, hu, e⟩ := h.used a ha
      have hne : c ≠ b := by
        rintro rfl
        rw [hu] at hfree
        simp at hfree
      refine ⟨c, ?_, hu, e⟩
      simp only [List.mem_append, List.mem_cons, hne, false_or] at hc ⊢
      tauto

theorem holds_kfree {xs ys : List Blk} {b : Blk} {live : List Nat}
    (hrep : Rep s (xs ++ b :: ys)) (h : Holds (xs ++ b :: ys) live) :
    Holds (release xs b ys) (live.erase (b.addr + 12)) := by
  refine ⟨h.nodup.erase _, fun a ha => ?_⟩
  obtain ⟨hne, ha⟩ := (List.Nodup.mem_erase_iff h.nodup).mp ha
  obtain ⟨c, hc, hu, e⟩ := h.used a ha
  refine ⟨c, mem_release ?_ hu, hu, e⟩
  have hcb : c ≠ b := by
    rintro rfl
    exact hne e
  simp only [List.mem_append, List.mem_cons, hcb, false_or] at hc ⊢
  exact hc

/-- In a run of splitting requests the held addresses are exactly blocks marked used. -/
theorem split_run_holds {c : Client} (hc : Run A splits c) :
    ∃ bs, Rep c.heap bs ∧ HeapInv A.base bs ∧ Holds bs c.live := by
  induction hc with
  | init hboot h =>
    exact ⟨_, slobInit_rep hboot h, initBlock_inv A, List.nodup_nil,
      fun a ha => absurd ha List.not_mem_nil⟩
  | @kmalloc c s' size addr _ _ hok h ih =>
    obtain ⟨bs, hrep, hi, hh⟩ := ih
    rcases kmalloc_cases hrep hi size with ⟨hk, -⟩ | ⟨xs, b, ys, rfl, hfree, hfit, hf, hk⟩
    · rw [hk] at h
      cases h
      exact ⟨bs, hrep, hi, hh⟩
    · rw [hk] at h
      cases h
      have hlen := (splits_iff hrep hi hf).mp hok
      rw [if_neg (by omega)]
      exact ⟨_, splitChunk_rep hrep hi hlen, splitBlock_inv hi hfree hlen,
        holds_kmalloc hrep hfree hh⟩
  | @kfree c addr _ ha ih =>
    obtain ⟨bs, hrep, hi, hh⟩ := ih
    obtain ⟨b, hb, hu, rfl⟩ := hh.used addr ha
    obtain ⟨xs, ys, rfl⟩ := List.append_of_mem hb
    exact ⟨_, kfree_rep hrep hi hu, release_inv hi, holds_kfree hrep hh⟩

theorem holds_exclusive {c : Client} (hrep : Rep c.heap bs) (hi : HeapInv A.base bs)
    (hh : Holds bs c.live) : Exclusive c := by
  refine hh.nodup.imp_of_mem fun {a a'} ha ha' hne => ?_
  obtain ⟨b, hb, -, rfl⟩ := hh.used a ha
  obtain ⟨b', hb', -, rfl⟩ := hh.used a' ha'
  have key : ∀ d ∈ bs, held c.heap (d.addr + 12) = d.seg := by
    intro d hd
    have hbd := hi.bounds hd
    have haddr : u32Sub (d.addr + 12) sizeofSlobBlock = d.addr := by
      rw [sizeofSlobBlock, u32Sub_of_le (by omega) (by omega)]
      omega
    simp only [held, haddr, hrep.fields d hd, Blk.fields, Blk.seg]
  rw [key b hb, key b' hb']
  have hbb : b ≠ b' := by
    rintro rfl
    exact hne rfl
  let R : Blk → Blk → Prop := fun x y =>
    x.addr + 12 + x.len ≤ y.addr ∨ y.addr + 12 + y.len ≤ x.addr
  have : Std.Symm R := ⟨fun _ _ => Or.symm⟩
  have hapart : bs.Pairwise R := hi.ordered.imp Or.inl
  rcases hapart.forall hb hb' hbb with h | h
  · exact Seg.disjoint_of_le (by simp only [Blk.seg, sizeofSlobBlock]; omega)
  · exact (Seg.disjoint_of_le (by simp only [Blk.seg, sizeofSlobBlock]; omega)).symm

/-- **Exclusive use in runs that split.** When every request finds either no block or one with more
than `44` bytes to spare, no two held blocks share a byte. -/
theorem split_run_exclusive {c : Client} (hc : Run A splits c) : Exclusive c := by
  obtain ⟨bs, hrep, hi, hh⟩ := split_run_holds hc
  exact holds_exclusive hrep hi hh

/-- Two requests right after `slob_init`, both of which split. -/
theorem split_run_exclusive_two : ∃ s, Exclusive ⟨s, [0xC0600088, 0xC060000C]⟩ := by
  obtain ⟨s₁, k₁, r₁, i₁⟩ := kmalloc_oneUsed
  obtain ⟨s₂, k₂, -⟩ := kmalloc_twoUsed r₁ i₁
  have r₀ := slobInit_rep bootMemory_ring slobInit_heap6M
  have c₀ : Run area6M splits ⟨heap6M, []⟩ := .init bootMemory_ring slobInit_heap6M
  have p₀ : splits heap6M 100 = true :=
    (splits_iff r₀ (initBlock_inv area6M) find_initBlock).mpr (by decide)
  have p₁ : splits s₁ 200 = true := (splits_iff r₁ i₁ find_oneUsed).mpr (by decide)
  have c₁ := c₀.kmalloc_live (by decide) p₀ k₁ (by decide)
  exact ⟨s₂, split_run_exclusive (c₁.kmalloc_live (by decide) p₁ k₂ (by decide))⟩

/-- **A request that does not split gives its block away twice.** It returns an address and leaves
the heap as it was, so the same request again returns the same address. -/
theorem kmalloc_unsplit {size : Nat} (hs : Reach A s) (h : splits s size = false) :
    ∃ a, a ≠ 0 ∧ kmalloc s size = .ok (s, a) := by
  obtain ⟨bs, hrep, hi⟩ := heap_invariant hs
  rcases kmalloc_cases hrep hi size with ⟨-, hf⟩ | ⟨xs, b, ys, rfl, hfree, hfit, hf, hk⟩
  · simp [splits, findFit_rep hrep hi, hf] at h
  · have hlen : ¬ requestLen size + 44 < b.len := fun hl => by
      rw [(splits_iff hrep hi hf).mpr hl] at h
      simp at h
    refine ⟨b.addr + 12, by omega, ?_⟩
    rw [hk, splitChunk_keep hi (hrep.fields b (by simp)) hfit (by omega)]

/-- Two requests for 4194270 bytes right after `slob_init`, whose block has 10 bytes to spare: both
get the same address. -/
theorem kmalloc_same_block_twice :
    Run area6M (fun _ _ => true) ⟨heap6M, [0xC060000C, 0xC060000C]⟩ ∧
      ¬ Exclusive ⟨heap6M, [0xC060000C, 0xC060000C]⟩ := by
  have r₀ := slobInit_rep bootMemory_ring slobInit_heap6M
  have i₀ := initBlock_inv area6M
  have k : kmalloc heap6M 4194270 = .ok (heap6M, 0xC060000C) := by
    rw [kmalloc_some (b := initBlock area6M) r₀ i₀ (by decide),
      @splitChunk_keep area6M heap6M [] [] _ _ i₀ (r₀.fields _ (by simp)) (by decide) (by decide)]
    rfl
  refine ⟨.kmalloc_live (.kmalloc_live (.init bootMemory_ring slobInit_heap6M) (by decide) rfl k
    (by decide)) (by decide) rfl k (by decide), fun h => ?_⟩
  have hdis := (List.pairwise_cons.mp h).1 0xC060000C List.mem_cons_self
  have hmem : 0xC0600000 ∈ (held heap6M 0xC060000C).cells := by
    rw [Seg.mem_cells]
    exact ⟨by decide, by decide⟩
  exact Set.disjoint_left.mp hdis hmem hmem

end Hurlex.Slob
