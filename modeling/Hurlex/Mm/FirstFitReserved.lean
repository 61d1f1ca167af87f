import Hurlex.Mm.FirstFitHistory

/-!
# `PG_RESERVED` and the free list

`ff_page_init` sets `PG_RESERVED` of every page it puts on `free_list`, `ff_alloc_pages` clears it of
every page it takes off, and the assertion of `ff_free_pages` relies on it. But `ff_free_pages` does
not set it again: **`flagsFree_iff`**, flags and list agree as long as nothing is freed.
-/

namespace Hurlex.FirstFit

open Lib

/-- A managed page has `PG_RESERVED` set exactly when it is on `free_list`. -/
def FlagsFree (M : PhyMem) (s : FfMm) : Prop :=
  ∀ i < M.count, (s.mem.page (.entry i)).isReserved = true ↔ s.mem.links.OnList freeList (.entry i)

/-- The assertion of `ff_free_pages` stops every call whose base page is free. -/
def RejectsFree (M : PhyMem) (s : FfMm) : Prop :=
  ∀ addr n i, n ≠ 0 → addrToPage M.start addr = .ok i → i < M.count →
    s.mem.links.OnList freeList (.entry i) →
    ffFreePages M.start s addr n = .error (.panic "ff_free_pages error!")

/-- What a client asks for. -/
inductive Call where
  | alloc (n : Nat)
  | free (addr n : Nat)

def Call.isAlloc : Call → Bool
  | .alloc _ => true
  | .free _ _ => false

/-- The histories from `ff_page_init` over zeroed descriptors all of whose states satisfy `P`, with
their calls, the latest first. A free hands back a live allocation. -/
inductive History (M : PhyMem) (P : FfMm → Prop) : List Call → Client → Prop
  | init {s s' : FfMm} (hzero : ∀ i < M.count, s.mem.page (.entry i) = Page.zero)
    (h : ffPageInit M.start s 0 M.count = .ok s') (hp : P s') : History M P [] ⟨s', []⟩
  | alloc {cs : List Call} {c : Client} {s' : FfMm} {n addr : Nat} (hc : History M P cs c)
    (hn : n < 2 ^ 32) (h : ffAllocPages M.start c.mm n = .ok (s', addr)) (hp : P s') :
    History M P (.alloc n :: cs) ⟨s', if addr = 0 then c.live else (addr, n) :: c.live⟩
  | free {cs : List Call} {c : Client} {s' : FfMm} {n addr : Nat} (hc : History M P cs c)
    (hl : (addr, n) ∈ c.live) (h : ffFreePages M.start c.mm addr n = .ok s') (hp : P s') :
    History M P (.free addr n :: cs) ⟨s', c.live.erase (addr, n)⟩

variable {M : PhyMem} {s s' : FfMm} {l : List Seg} {c : Client} {cs : List Call}

/-! ## The assertion -/

/-- The call ends in the assertion exactly when the flag is set. -/
theorem ffFreePages_panic_iff {addr n i : Nat} (hn : n ≠ 0)
    (hi : addrToPage M.start addr = .ok i) :
    ffFreePages M.start s addr n = .error (.panic "ff_free_pages error!") ↔
      (s.mem.page (.entry i)).isReserved = true := by
  unfold ffFreePages
  rw [if_neg hn, hi]
  simp only [bind, Except.bind, kassert]
  cases hres : (s.mem.page (.entry i)).isReserved with
  | true => exact iff_of_true rfl rfl
  | false =>
    refine iff_of_false (fun h => ?_) Bool.noConfusion
    simp only [Bool.not_false, if_true] at h
    split at h
    · cases h
    · split at h
      · cases h
      · cases h

theorem FlagsFree.rejects (h : FlagsFree M s) : RejectsFree M s := fun _ _ i hn ha hi hon =>
  (ffFreePages_panic_iff hn ha).2 ((h i hi).2 hon)

/-! ## The flags of the free runs -/

theorem Rep.onList_iff (h : Rep M s l) (i : Nat) :
    s.mem.links.OnList freeList (.entry i) ↔ ∃ t ∈ l, i ∈ t.cells := by
  rw [h.ring.onList_iff, entry_mem_nodesOf]

theorem flagsFree_init (hzero : ∀ i < M.count, s.mem.page (.entry i) = Page.zero)
    (h : ffPageInit M.start s 0 M.count = .ok s') : FlagsFree M s' := by
  obtain ⟨hrep, hres⟩ := ffPageInit_spec hzero h
  intro i hi
  rw [hrep.onList_iff]
  exact iff_of_true (hres i hi) ⟨_, List.mem_singleton_self _, Seg.mem_cells.mpr (by omega)⟩

/-- Pages leave the list together with their flag. -/
theorem FlagsFree.alloc {r : Seg} {n addr : Nat} (hf : FlagsFree M s) (h : Rep M s (r :: l)) (hn : 0 < n)
    (hle : n ≤ r.2) (hs : ffAllocPages M.start s n = .ok (s', addr)) : FlagsFree M s' := by
  obtain ⟨t, ht, hrep, hres⟩ := ffAllocPages_first h hn hle
  rw [ht] at hs
  cases hs
  intro i hi
  -- the pages taken are the first of the run, the others stay
  have hcells : i ∈ cellsOf (r :: l) ↔ (r.1 ≤ i ∧ i < r.1 + n) ∨ i ∈ cellsOf (takeFront r n l) := by
    rw [takeFront_cells hle, List.mem_append, Seg.mem_pages, Seg.mem_cells]
  have hgone : r.1 ≤ i ∧ i < r.1 + n → i ∉ cellsOf (takeFront r n l) := fun hin hmem => by
    have hnd := h.runs.nodup
    rw [takeFront_cells hle, List.nodup_append] at hnd
    exact hnd.2.2 i (Seg.mem_pages.mpr (Seg.mem_cells.mpr hin)) i hmem rfl
  rw [hres, hrep.onList_iff, Bool.and_eq_true, hf i hi, h.onList_iff, ← mem_cellsOf, ← mem_cellsOf,
    hcells, Bool.not_eq_true', decide_eq_false_iff_not]
  tauto

/-- **The slip.** A page that is freed goes back on the list without its flag. -/
theorem free_not_flagged {x : Nat × Nat} (h : Shares M c l) (hx : x ∈ c.live)
    (hs : ffFreePages M.start c.mm x.1 x.2 = .ok s') : ¬ FlagsFree M s' ∧ ¬ RejectsFree M s' := by
  obtain ⟨t, l', ht, hsh, hsame, hback⟩ := shares_free h hx
  rw [ht] at hs
  cases hs
  obtain ⟨haddr, hpos, hclear⟩ := h.live x hx
  have hseg : M.liveSeg x ∈ c.live.map M.liveSeg := List.mem_map_of_mem hx
  have hin : M.index x.1 + x.2 ≤ M.count := h.exact.bound (List.mem_append_right _ hseg) hpos
  have hres : (s'.mem.page (.entry (M.index x.1))).isReserved = false := (hsame _).trans hclear
  have hon : s'.mem.links.OnList freeList (.entry (M.index x.1)) :=
    (hsh.rep.onList_iff _).mpr hback
  have hlt : M.index x.1 < M.count := by omega
  refine ⟨fun hf => ?_, fun hr => ?_⟩
  · rw [(hf _ hlt).mpr hon] at hres
    exact Bool.noConfusion hres
  · have hi := M.addrToPage_eq hlt.le
    have hpanic := hr _ 1 _ (by decide) hi hlt hon
    rw [ffFreePages_panic_iff (by decide) hi, hres] at hpanic
    exact Bool.noConfusion hpanic

/-! ## Whole histories -/

/-- Before the first free the free pages are one run, so any request finds its pages there. -/
theorem History.untouched {P : FfMm → Prop} (h : History M P cs c)
    (hcs : ∀ k ∈ cs, k.isAlloc = true) :
    ∃ l, Shares M c l ∧ l.length ≤ 1 ∧ FlagsFree M c.mm := by
  induction h with
  | init hzero h _ => exact ⟨_, shares_init hzero h, Nat.le_refl _, flagsFree_init hzero h⟩
  | @alloc cs c s' n addr _ _ h _ ih =>
    obtain ⟨l, hs, hl, hf⟩ := ih fun k hk => hcs k (List.mem_cons_of_mem _ hk)
    have hok : firstFits c.mm n = true := by
      match l, hl with
      | [], _ => exact firstFits_nil hs.rep
      | [r], _ =>
        rw [firstFits_iff hs.rep, total_cons, show total [] = 0 from rfl]
        omega
    rcases ffAllocPages_cases hs.rep hok with hk | ⟨r, l, rfl, hn, hle⟩
    · rw [hk] at h
      cases h
      exact ⟨l, hs, hl, hf⟩
    · obtain ⟨t, hk, ht⟩ := shares_alloc hs hn hle
      have hft := hf.alloc hs.rep hn hle hk
      rw [hk] at h
      cases h
      rw [if_neg (M.addr_ne_zero _)]
      refine ⟨_, ht, ?_, hft⟩
      unfold takeFront
      split
      · exact hl
      · exact Nat.le_of_succ_le hl
  | free => exact absurd (hcs _ List.mem_cons_self) Bool.noConfusion

/-- **When `PG_RESERVED` tells free pages.** In a history of allocations only, and in no other one
are the flags right all the time. -/
theorem flagsFree_iff (M : PhyMem) (cs : List Call) (c : Client) :
    (History M (fun _ => True) cs c → (∀ k ∈ cs, k.isAlloc = true) →
      FlagsFree M c.mm ∧ RejectsFree M c.mm) ∧
    (History M (fun s => FlagsFree M s ∧ RejectsFree M s) cs c → ∀ k ∈ cs, k.isAlloc = true) := by
  refine ⟨fun h hcs => ?_, fun h => ?_⟩
  · obtain ⟨-, -, -, hf⟩ := h.untouched hcs
    exact ⟨hf, hf.rejects⟩
  · induction h with
    | init => exact fun k hk => absurd hk List.not_mem_nil
    | alloc _ _ _ _ ih =>
      intro k hk
      rcases List.mem_cons.mp hk with rfl | hk
      · rfl
      · exact ih k hk
    | free hc hl hs hp ih =>
      obtain ⟨l, hsh, -⟩ := hc.untouched ih
      exact absurd hp.1 (free_not_flagged hsh hl hs).1

/-- Page 0 of three is taken and freed: it is free, its flag is clear, and freeing it again does not
end in the assertion. -/
theorem not_flagsFree : ¬ ∀ (M : PhyMem) (cs : List Call) (c : Client),
    History M (fun _ => True) cs c → FlagsFree M c.mm ∧ RejectsFree M c.mm := by
  intro h
  obtain ⟨s₀, h₀⟩ : ∃ s, ffPageInit phyMem3.start zeroMm 0 phyMem3.count = .ok s := ⟨_, rfl⟩
  have hzero : ∀ i < phyMem3.count, zeroMm.mem.page (.entry i) = Page.zero := fun _ _ => rfl
  obtain ⟨s₁, h₁, sh₁⟩ := shares_alloc (n := 1) (shares_init hzero h₀) (by decide) (by decide)
  obtain ⟨s₂, -, h₂, -⟩ := shares_free (x := (0x200000, 1)) sh₁ List.mem_cons_self
  have c₀ : History phyMem3 (fun _ => True) [] ⟨s₀, []⟩ := .init hzero h₀ trivial
  have c₁ := c₀.alloc (n := 1) (by decide) h₁ trivial
  have c₂ := c₁.free List.mem_cons_self h₂ trivial
  exact (free_not_flagged sh₁ List.mem_cons_self h₂).1 (h _ _ _ c₂).1

end Hurlex.FirstFit
