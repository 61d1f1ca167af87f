import Hurlex.Mm.FirstFit
import Hurlex.Lib.Runs

/-!
# What the First-Fit manager does to the free runs

`Rep M s l`: the manager's memory `s` holds the maximal free runs `l`. `ffAllocPages_first` and
`ffFreePages_rep` say what the code does to the runs: an allocation takes pages off the front of the
first run, a free puts a run back and joins it to the runs it touches.
-/

namespace Hurlex.FirstFit

open Lib

/-- The list fields of the pages of a run, in order. -/
def nodes (s : Seg) : List PageNode := s.pages.map .entry

/-- The list fields of the pages of `l`, in order. -/
def nodesOf (l : List Seg) : List PageNode := (cellsOf l).map .entry

/-- The descriptors of the first `N` pages note down the runs `l`. -/
def Notes (N : Nat) (mem : PageMem Unit) (l : List Seg) : Prop :=
  ∀ i < N, (mem.page (.entry i)).num = headLen l i ∧
    (mem.page (.entry i)).isNcount = decide (0 < headLen l i)

/-- The manager's memory `s` holds the free runs `l`. -/
structure Rep (M : PhyMem) (s : FfMm) (l : List Seg) : Prop where
  ring : LinkRing s.mem.links freeList (nodesOf l)
  runs : Separated l
  inside : ∀ t ∈ l, t.1 + t.2 ≤ M.count
  notes : Notes M.count s.mem l
  count : s.phyPageCount = M.count
  now : s.phyPageNowCount = total l

theorem nodesOf_append (l₁ l₂ : List Seg) : nodesOf (l₁ ++ l₂) = nodesOf l₁ ++ nodesOf l₂ := by
  simp only [nodesOf, cellsOf_append, List.map_append]

theorem nodesOf_cons (s : Seg) (l : List Seg) : nodesOf (s :: l) = nodes s ++ nodesOf l := by
  simp only [nodesOf, nodes, cellsOf_cons, List.map_append]

theorem nodes_succ (a n : Nat) : nodes (a, n + 1) = .entry a :: nodes (a + 1, n) := by
  rw [nodes, pages_succ]
  rfl

theorem entry_mem_nodesOf {l : List Seg} {i : Nat} :
    (Node.entry i : PageNode) ∈ nodesOf l ↔ ∃ s ∈ l, i ∈ s.cells := by
  rw [nodesOf, List.mem_map_of_injective fun _ _ => Node.entry.inj, mem_cellsOf]

theorem nodes_concat (a n : Nat) : nodes (a, n + 1) = nodes (a, n) ++ [.entry (a + n)] := by
  rw [nodes, Seg.pages, List.range'_1_concat, List.map_append]
  rfl

theorem nodesOf_length (l : List Seg) : (nodesOf l).length = total l := by
  rw [nodesOf, List.length_map, cellsOf_length]

/-! ## `ff_alloc_pages` -/

/-- The loop takes the pages off the list and clears their `PG_RESERVED`. -/
theorem takePages_spec {rest : List PageNode} :
    ∀ (n a : Nat) (mem : PageMem Unit) (le : PageNode),
      LinkRing mem.links freeList (nodes (a, n) ++ rest) →
      (nodes (a, n) ++ rest ++ [freeList]).head? = some le →
      LinkRing (takePages mem le n).1.links freeList rest ∧
        (rest ++ [freeList]).head? = some (takePages mem le n).2 ∧
        ∀ i, (takePages mem le n).1.page (.entry i) =
          if a ≤ i ∧ i < a + n then (mem.page (.entry i)).clearFlag pgReserved
          else mem.page (.entry i)
  | 0, a, mem, le, hr, hle => by
    refine ⟨hr, hle, fun i => ?_⟩
    rw [if_neg (by omega)]
    rfl
  | n + 1, a, mem, le, hr, hle => by
    rw [nodes_succ, List.cons_append] at hr hle
    obtain rfl : Node.entry a = le := by simpa using hle
    have hnext := LinkRing.next_mem (show LinkRing _ _ ([] ++ _ :: _) from hr)
    have hdel := listDel_ring (show LinkRing _ _ ([] ++ _ :: _) from hr)
    obtain ⟨h1, h2, h3⟩ := takePages_spec n (a + 1)
      { mem.modify (.entry a) (Page.clearFlag pgReserved) with
        links := listDel mem.links (.entry a) } _ hdel hnext
    refine ⟨h1, h2, fun i => ?_⟩
    refine (h3 i).trans ?_
    by_cases hi : i = a
    · subst hi
      rw [if_neg (by omega), if_pos (by omega)]
      exact mem.modify_self _ _
    · have hne : (Node.entry i : PageNode) ≠ .entry a := fun e => hi (Node.entry.inj e)
      have hp : (mem.modify (.entry a) (Page.clearFlag pgReserved)).page (.entry i) =
          mem.page (.entry i) := mem.modify_of_ne hne _
      simp only [hp]
      by_cases hc : a + 1 ≤ i ∧ i < a + 1 + n
      · rw [if_pos hc, if_pos (by omega)]
      · rw [if_neg hc, if_neg (by omega)]

/-- The pages whose `PG_RESERVED` a call has not touched. -/
def SameReserved (mem mem' : PageMem Unit) : Prop :=
  ∀ i, (mem'.page (.entry i)).isReserved = (mem.page (.entry i)).isReserved

/-- The page that heads a run behind the pages taken is the one where the loop ends. -/
theorem cutRun_spec {mem : PageMem Unit} {le : PageNode} {p n m : Nat}
    (hm : (mem.page (.entry p)).num = m) (hle : n < m → le = .entry (p + n)) :
    (cutRun mem p le n).links = mem.links ∧ SameReserved mem (cutRun mem p le n) ∧
      ∀ i, ((cutRun mem p le n).page (.entry i)).num =
          (if i = p then 0 else if n < m ∧ i = p + n then m - n else (mem.page (.entry i)).num) ∧
        ((cutRun mem p le n).page (.entry i)).isNcount =
          (if i = p then false
            else if n < m ∧ i = p + n then true else (mem.page (.entry i)).isNcount) := by
  unfold cutRun
  simp only [hm]
  by_cases hlt : n < m
  · obtain rfl := hle hlt
    rw [if_pos hlt]
    refine ⟨rfl, fun i => ?_, fun i => ?_⟩
    · simp only [PageMem.modify, Function.update_apply]
      split_ifs <;> simp_all
    · simp only [PageMem.modify, Function.update_apply]
      split_ifs <;> simp_all
  · rw [if_neg hlt]
    refine ⟨rfl, fun i => ?_, fun i => ?_⟩
    · simp only [PageMem.modify, Function.update_apply]
      split_ifs <;> simp_all
    · simp only [PageMem.modify, Function.update_apply]
      split_ifs <;> simp_all

variable {M : PhyMem} {s : FfMm} {l : List Seg}

theorem Rep.total_le (h : Rep M s l) : total l ≤ M.count := by
  have := h.runs.total_le (Nat.zero_le M.count) fun t ht => ⟨Nat.zero_le _, h.inside t ht⟩
  omega

/-- The first page of the list heads the first run. -/
theorem Rep.next_first {r : Seg} (h : Rep M s (r :: l)) :
    s.mem.links.next freeList = .entry r.1 := by
  have hpos := h.runs.pos r List.mem_cons_self
  obtain ⟨k, hk⟩ : ∃ k, r.2 = k + 1 := ⟨r.2 - 1, by omega⟩
  have hr : r = (r.1, k + 1) := by rw [← hk]
  have hnext := h.ring.next_head
  rw [nodesOf_cons, hr, nodes_succ] at hnext
  simpa using hnext.symm

/-- It notes down the first run's length. -/
theorem Rep.headLen_first {r : Seg} (h : Rep M s (r :: l)) : headLen (r :: l) r.1 = r.2 := by
  have hsep : Separated ([] ++ r :: l) := h.runs
  exact hsep.headLen_head

theorem Rep.note_first {r : Seg} (h : Rep M s (r :: l)) :
    (s.mem.page (.entry r.1)).num = r.2 ∧ (s.mem.page (.entry r.1)).isNcount = true := by
  have hin := h.inside r List.mem_cons_self
  have hpos := h.runs.pos r List.mem_cons_self
  obtain ⟨hnum, hflag⟩ := h.notes r.1 (by omega)
  rw [h.headLen_first] at hnum hflag
  exact ⟨hnum, hflag.trans (decide_eq_true hpos)⟩

/-- The test of `ff_alloc_pages` asks how long the first run is. -/
theorem Rep.headsRun_first {r : Seg} (h : Rep M s (r :: l)) (n : Nat) :
    headsRun s.mem r.1 n = decide (n ≤ r.2) := by
  rw [headsRun, h.note_first.1, h.note_first.2, Bool.true_and]

/-- **`ff_alloc_pages` when the first run is long enough** takes the run's first `n` pages. -/
theorem ffAllocPages_first {r : Seg} {n : Nat} (h : Rep M s (r :: l)) (hn : 0 < n) (hle : n ≤ r.2) :
    ∃ s', ffAllocPages M.start s n = .ok (s', M.addr r.1) ∧ Rep M s' (takeFront r n l) ∧
      ∀ i, (s'.mem.page (.entry i)).isReserved =
        (!decide (r.1 ≤ i ∧ i < r.1 + n) && (s.mem.page (.entry i)).isReserved) := by
  have hin := h.inside r List.mem_cons_self
  have hlt := M.count_lt
  have hnow : s.phyPageNowCount = r.2 + total l := h.now.trans (total_cons r l)
  have hnodes : nodesOf (r :: l) = nodes (r.1, n) ++ nodesOf (takeFront r n l) := by
    simp only [nodesOf, nodes, takeFront_cells hle, List.map_append]
  have hring := h.ring
  rw [hnodes] at hring
  have hfirst := h.next_first
  have htest : headsRun s.mem r.1 n = true := (h.headsRun_first n).trans (decide_eq_true hle)
  obtain ⟨t1, t2, t3⟩ := takePages_spec n r.1 s.mem (.entry r.1) hring (by
    rw [← hnodes, ← hfirst]
    exact h.ring.next_head)
  set t := takePages s.mem (.entry r.1) n with ht
  have hm : (t.1.page (.entry r.1)).num = r.2 := by
    rw [t3, if_pos (by omega)]
    exact h.note_first.1
  have hend : n < r.2 → t.2 = .entry (r.1 + n) := by
    intro hlt'
    obtain ⟨k, hk⟩ : ∃ k, r.2 - n = k + 1 := ⟨r.2 - n - 1, by omega⟩
    rw [takeFront, if_pos hlt', nodesOf_cons, hk, nodes_succ] at t2
    simpa using t2.symm
  obtain ⟨c1, c2, c3⟩ := cutRun_spec hm hend
  refine ⟨⟨cutRun t.1 r.1 t.2 n, s.mmAddrStart, s.mmAddrEnd, s.phyPageCount,
    u32Sub s.phyPageNowCount n⟩, ?_,
    ⟨?_, takeFront_separated h.runs, takeFront_bound h.inside, ?_, h.count, ?_⟩, ?_⟩
  · unfold ffAllocPages
    rw [if_neg (by omega), hfirst]
    simp only [htest, if_true, M.pageToAddr_eq (by omega : r.1 ≤ M.count)]
    rfl
  · exact c1 ▸ t1
  · intro i hi
    obtain ⟨d1, d2⟩ := c3 i
    obtain ⟨e1, e2⟩ := h.notes i hi
    have hl := takeFront_headLen h.runs hn i
    have hrest : (t.1.page (.entry i)).num = headLen (r :: l) i ∧
        (t.1.page (.entry i)).isNcount = decide (0 < headLen (r :: l) i) := by
      rw [t3]
      split_ifs <;> simpa using ⟨e1, e2⟩
    simp only [d1, d2, hl, hrest]
    refine ⟨trivial, ?_⟩
    split_ifs
    · rfl
    · simp only [true_eq_decide_iff]
      omega
    · rfl
  · have htotal := h.total_le
    rw [← takeFront_total hle] at htotal
    simp only [hnow]
    rw [← total_cons, ← takeFront_total hle, u32Sub_of_le (by omega) (by omega)]
    omega
  · intro i
    rw [c2 i, t3]
    split_ifs with hi
    · simp [hi]
    · simp [hi]

/-! ## `ff_free_pages` -/

/-- The first loop stops at the first page behind `b`. -/
theorem find_above {A B : List Seg} {b : Nat} (hA : ∀ t ∈ A, t.1 + t.2 ≤ b)
    (hB : ∀ t ∈ B, b < t.1) : (nodesOf (A ++ B)).find? (above b) = (nodesOf B).head? := by
  have hnone : (nodesOf A).find? (above b) = none := by
    rw [List.find?_eq_none]
    intro x hx
    obtain ⟨i, hi, rfl⟩ := List.mem_map.mp hx
    obtain ⟨t, ht, hit⟩ := mem_cellsOf.mp hi
    have := hA t ht
    rw [Seg.mem_cells] at hit
    simp only [above, decide_eq_true_eq]
    omega
  rw [nodesOf_append, List.find?_append, hnone, Option.none_or]
  cases hBn : nodesOf B with
  | nil => rfl
  | cons x xs =>
    have hx : x ∈ nodesOf B := hBn ▸ List.mem_cons_self
    obtain ⟨i, hi, rfl⟩ := List.mem_map.mp hx
    obtain ⟨t, ht, hit⟩ := mem_cellsOf.mp hi
    have := hB t ht
    rw [Seg.mem_cells] at hit
    exact List.find?_cons_of_pos (by simp only [above, decide_eq_true_eq]; omega)

/-- The loop links the pages in, in front of `le`. -/
theorem insertPages_spec {le : PageNode} {ys : List PageNode}
    (hle : (ys ++ [freeList]).head? = some le) :
    ∀ (n b : Nat) (mem : PageMem Unit) (xs : List PageNode),
      LinkRing mem.links freeList (xs ++ ys) → (∀ i, b ≤ i → i < b + n → .entry i ∉ xs ++ ys) →
      LinkRing (insertPages mem b n le).links freeList (xs ++ nodes (b, n) ++ ys) ∧
        (insertPages mem b n le).page = mem.page
  | 0, b, mem, xs, hr, _ => by simpa [insertPages, nodes, Seg.pages] using hr
  | n + 1, b, mem, xs, hr, hnew => by
    have hx : (Node.entry b : PageNode) ∉ freeList :: (xs ++ ys) := by
      rw [List.mem_cons, not_or]
      exact ⟨by simp, hnew b (by omega) (by omega)⟩
    have hr1 := listAddBefore_ring_at hr hle hx
    rw [List.append_cons] at hr1
    obtain ⟨h1, h2⟩ := insertPages_spec hle n (b + 1)
      { mem with links := listAddBefore mem.links (.entry b) le } (xs ++ [.entry b]) hr1
      fun i hi hi' hm => by
        simp only [List.append_assoc, List.singleton_append, List.mem_append, List.mem_cons,
          Node.entry.injEq] at hm
        have := hnew i (by omega) (by omega)
        rw [List.mem_append] at this
        rcases hm with hm | rfl | hm
        · exact this (Or.inl hm)
        · omega
        · exact this (Or.inr hm)
    rw [nodes_succ, List.append_cons xs]
    exact ⟨h1, h2⟩

theorem mergeStep_links (b : Nat) (mem : PageMem Unit) (le : PageNode) :
    (mergeStep b mem le).links = mem.links := by
  unfold mergeStep
  split <;> rfl

/-- The second loop is a fold over the pages in front, from the last to the first. -/
theorem mergeLoop_eq {b : Nat} (pre : List PageNode) :
    ∀ (suf : List PageNode) (fuel : Nat) (mem : PageMem Unit) (le : PageNode),
      LinkRing mem.links freeList (pre ++ suf) → pre.length < fuel →
      (freeList :: pre).getLast? = some le →
      mergeLoop b fuel mem le = some (pre.foldr (fun le mem => mergeStep b mem le) mem) := by
  induction pre using List.reverseRecOn with
  | nil =>
    intro suf fuel mem le _ hf hle
    obtain ⟨k, rfl⟩ : ∃ k, fuel = k + 1 := ⟨fuel - 1, by simp at hf; omega⟩
    obtain rfl : freeList = le := by simpa using hle
    rw [mergeLoop, if_pos rfl]
    rfl
  | append_singleton zs c ih =>
    intro suf fuel mem le hr hf hle
    obtain ⟨k, rfl⟩ : ∃ k, fuel = k + 1 := ⟨fuel - 1, by simp at hf; omega⟩
    rw [← List.cons_append, List.getLast?_concat] at hle
    obtain rfl := Option.some.inj hle
    have hne : c ≠ freeList := fun e => (List.nodup_cons.mp hr.nodup).1 (by simp [← e])
    rw [List.append_assoc, List.singleton_append] at hr
    rw [mergeLoop, if_neg hne, List.foldr_append]
    simp only [mergeStep_links, List.foldr_cons, List.foldr_nil]
    exact ih (c :: suf) k _ _ (mergeStep_links b mem c ▸ hr) (by simpa using hf) hr.prev_mem

/-- A page that heads no run is passed over. -/
theorem mergeStep_inner {b : Nat} {mem : PageMem Unit} {x : PageNode}
    (h : (mem.page x).isNcount = false) : mergeStep b mem x = mem := by
  unfold mergeStep
  rw [if_neg (by simp [h])]

/-- Once `base` heads no run any more, the first pages of earlier runs stay as they are. -/
theorem mergeStep_done {b : Nat} {mem : PageMem Unit} {x : PageNode} {q : Page}
    (hb : mem.page (.entry b) = (q.clearFlag pgNcount).setNum 0)
    (hnum : (mem.page x).num < 2 ^ 32) : mergeStep b mem x = mem := by
  unfold mergeStep
  by_cases hf : (mem.page x).isNcount
  · have h1 : mem.modify x (Page.setNum (u32 ((mem.page x).num + (mem.page (.entry b)).num))) =
        mem := by
      refine mem.modify_eq_self ?_
      rw [hb, Page.setNum_num, Nat.add_zero, u32_of_lt hnum]
      rfl
    have h2 : mem.modify (.entry b) (Page.clearFlag pgNcount) = mem := by
      refine mem.modify_eq_self ?_
      rw [hb]
      exact congrArg (Page.setNum 0) (q.clearFlag_clearFlag pgNcount)
    have h3 : mem.modify (.entry b) (Page.setNum 0) = mem := by
      refine mem.modify_eq_self ?_
      rw [hb]
      rfl
    rw [if_pos hf]
    simp only [h1, h2, h3]
  · rw [if_neg hf]

theorem foldr_mergeStep_id {b : Nat} {mem : PageMem Unit} {pre : List PageNode}
    (h : ∀ x ∈ pre, mergeStep b mem x = mem) :
    pre.foldr (fun le mem => mergeStep b mem le) mem = mem := by
  induction pre with
  | nil => rfl
  | cons x xs ih =>
    rw [List.foldr_cons, ih fun y hy => h y (List.mem_cons_of_mem _ hy)]
    exact h x List.mem_cons_self

/-- The writes that join the run at `q` to the run at `p` in front of it. -/
def Absorbs (mem mem' : PageMem Unit) (p q n : Nat) : Prop :=
  mem'.page = Function.update
    (Function.update mem.page (.entry p) ((mem.page (.entry p)).setNum n))
    (.entry q) (((mem.page (.entry q)).clearFlag pgNcount).setNum 0)

theorem Absorbs.reserved {mem mem' : PageMem Unit} {p q n : Nat} (h : Absorbs mem mem' p q n) :
    SameReserved mem mem' := by
  intro i
  rw [h]
  simp only [Function.update_apply]
  split_ifs with h1 h2
  · simp [h1]
  · simp [h2]
  · rfl

theorem Absorbs.notes {N p q m n : Nat} {mem mem' : PageMem Unit} {X Y : List Seg}
    (h : Absorbs mem mem' p q (m + n)) (hpq : p < q) (hX : ∀ t ∈ X, t.1 < p)
    (hY : ∀ t ∈ Y, q < t.1) (hm : 0 < m) (hnotes : Notes N mem (X ++ (p, m) :: (q, n) :: Y)) :
    Notes N mem' (X ++ (p, m + n) :: Y) := by
  intro i hi
  have hi1 := hnotes i hi
  rw [headLen_join hpq hX hY, h]
  simp only [Function.update_apply, Node.entry.injEq]
  by_cases h1 : i = q
  · simp [h1]
  · by_cases h2 : i = p
    · subst h2
      have hsum : 0 < m + n := by omega
      rw [(headLen_pair hpq hX hY).1] at hi1
      simp [h1, hi1.2, hm, hsum]
    · simpa [h1, h2] using hi1

/-- The second loop joins `base` to the run that ends in front of it. -/
theorem mergeLoop_notes {N b m : Nat} {mem : PageMem Unit} {A B : List Seg} {r : Seg}
    (hA : Separated (A ++ [r])) (hr : r.1 + r.2 = b) (hB : ∀ t ∈ B, b < t.1) (hN : b + m ≤ N)
    (hN' : N < 2 ^ 32) (hm : 0 < m) (hnotes : Notes N mem (A ++ r :: (b, m) :: B)) :
    ∃ mem', (nodesOf (A ++ [r])).foldr (fun le mem => mergeStep b mem le) mem = mem' ∧
      mem'.links = mem.links ∧ Absorbs mem mem' r.1 b (r.2 + m) := by
  obtain ⟨hsA, hrpos, hAr⟩ := Separated.append_iff.mp hA
  have hpos := hrpos.pos r List.mem_cons_self
  have hAr' : ∀ t ∈ A, t.1 + t.2 < r.1 := fun t ht => hAr t ht r List.mem_cons_self
  have hAr1 : ∀ t ∈ A, t.1 < r.1 := fun t ht => by
    have := hAr' t ht
    omega
  have hpair := headLen_pair (m := r.2) (n := m) (by omega : r.1 < b) hAr1 hB
  have hr1 := hnotes r.1 (by omega)
  have hb1 := hnotes b (by omega)
  rw [hpair.1] at hr1
  rw [hpair.2] at hb1
  obtain ⟨k, hk⟩ : ∃ k, r.2 = k + 1 := ⟨r.2 - 1, by omega⟩
  have hsplit : nodesOf (A ++ [r]) = nodesOf A ++ .entry r.1 :: nodes (r.1 + 1, k) := by
    have : r = (r.1, k + 1) := by rw [← hk]
    rw [nodesOf_append, this]
    simp only [nodesOf_cons, nodes_succ]
    simp [nodesOf, cellsOf]
  -- the pages of `r` behind its first head no run
  have hinner : (nodes (r.1 + 1, k)).foldr (fun le mem => mergeStep b mem le) mem = mem := by
    refine foldr_mergeStep_id fun x hx => ?_
    obtain ⟨i, hi, rfl⟩ := List.mem_map.mp hx
    rw [Seg.mem_pages, Seg.mem_cells] at hi
    simp only at hi
    refine mergeStep_inner ?_
    have hz : headLen (A ++ r :: (b, m) :: B) i = 0 := by
      refine headLen_eq_zero fun t ht => ?_
      simp only [List.mem_append, List.mem_cons] at ht
      rcases ht with ht | rfl | rfl | ht
      · have := hAr1 t ht
        omega
      · omega
      · simp only
        omega
      · have := hB t ht
        omega
    rw [(hnotes i (by omega)).2, hz]
    rfl
  -- the first page of `r` takes over what `b` noted down
  have hstep : Absorbs mem (mergeStep b mem (.entry r.1)) r.1 b (r.2 + m) := by
    have hrb : (Node.entry b : PageNode) ≠ .entry r.1 := fun e => by
      have := Node.entry.inj e
      omega
    unfold Absorbs mergeStep
    rw [if_pos (by rw [hr1.2]; simpa using hpos), hr1.1, hb1.1]
    simp only [PageMem.modify, Function.update_self, Function.update_idem,
      u32_of_lt (n := r.2 + m) (by omega), Function.update_of_ne hrb]
  -- and the pages in front of `r` find `b` empty
  have hdone : (nodesOf A).foldr (fun le mem => mergeStep b mem le)
      (mergeStep b mem (.entry r.1)) = mergeStep b mem (.entry r.1) := by
    refine foldr_mergeStep_id fun x hx => ?_
    obtain ⟨i, hi, rfl⟩ := List.mem_map.mp hx
    obtain ⟨t, ht, hit⟩ := mem_cellsOf.mp hi
    have htr := hAr' t ht
    rw [Seg.mem_cells] at hit
    refine mergeStep_done (q := mem.page (.entry b)) (by rw [hstep, Function.update_self]) ?_
    have h1 := hstep.notes (by omega) hAr1 hB hpos hnotes i (by omega)
    have h2 : headLen ((r.1, r.2 + m) :: B) i = 0 := by
      refine headLen_eq_zero fun u hu => ?_
      rcases List.mem_cons.mp hu with rfl | hu
      · simp only
        omega
      · have := hB u hu
        omega
    have h3 := headLen_le_total A i
    have h4 := hsA.total_le (Nat.zero_le b) fun u hu =>
      ⟨Nat.zero_le _, by have := hAr' u hu; omega⟩
    rw [h1.1, headLen_append, h2]
    omega
  refine ⟨mergeStep b mem (.entry r.1), ?_, mergeStep_links b mem _, hstep⟩
  rw [hsplit, List.foldr_append, List.foldr_cons, hinner, hdone]

/-- The step that joins `base` to the run in front of it. -/
theorem mergePrev_spec {N b m fuel : Nat} {mem : PageMem Unit} {A B : List Seg}
    {rest : List PageNode} (hring : LinkRing mem.links freeList (nodesOf A ++ .entry b :: rest))
    (hA : Separated A) (hAb : ∀ t ∈ A, t.1 + t.2 ≤ b) (hB : ∀ t ∈ B, b < t.1) (hN : b + m ≤ N)
    (hN' : N < 2 ^ 32) (hm : 0 < m) (hfuel : (nodesOf A).length < fuel)
    (hnotes : Notes N mem (A ++ (b, m) :: B)) :
    ∃ mem', mergePrev mem b fuel = some mem' ∧ mem'.links = mem.links ∧ SameReserved mem mem' ∧
      Notes N mem' (joinPrev A (b, m) ++ B) := by
  have hprev := hring.prev_mem
  unfold mergePrev
  rcases List.eq_nil_or_concat A with rfl | ⟨A, r, rfl⟩
  · have hp : mem.links.prev (.entry b) = freeList := by simpa [nodesOf, cellsOf] using hprev.symm
    rw [if_neg (by simp [hp])]
    exact ⟨mem, rfl, rfl, fun _ => rfl, hnotes⟩
  · rw [List.concat_eq_append] at *
    have hpos := hA.pos r (by simp)
    have hrb := hAb r (by simp)
    obtain ⟨k, hk⟩ : ∃ k, r.2 = k + 1 := ⟨r.2 - 1, by omega⟩
    have hp : mem.links.prev (.entry b) = .entry (r.1 + k) := by
      have hr : r = (r.1, k + 1) := by rw [← hk]
      rw [nodesOf_append, hr] at hprev
      simp only [nodesOf_cons, nodes_concat] at hprev
      simpa [nodesOf, cellsOf, List.getLast?_cons] using hprev.symm
    rw [joinPrev_concat, hp]
    by_cases htouch : r.1 + r.2 = b
    · rw [List.append_assoc] at hnotes
      obtain ⟨mem', h1, h2, h3⟩ := mergeLoop_notes hA htouch hB hN hN' hm hnotes
      have hcond : (Node.entry (r.1 + k) : PageNode) ≠ freeList ∧ b ≠ 0 ∧
          (Node.entry (r.1 + k) : PageNode) = .entry (b - 1) := by
        refine ⟨by simp, by omega, ?_⟩
        rw [show r.1 + k = b - 1 by omega]
      refine ⟨mem', ?_, h2, h3.reserved, ?_⟩
      · rw [if_pos hcond, mergeLoop_eq _ _ _ _ _ hring hfuel, h1]
        rw [← hp]
        exact hprev
      · rw [if_pos htouch, List.append_assoc]
        refine h3.notes (by omega) (fun t ht => ?_) hB hpos hnotes
        have := (List.pairwise_append.mp hA.apart).2.2 t ht r List.mem_cons_self
        omega
    · have hcond : ¬ ((Node.entry (r.1 + k) : PageNode) ≠ freeList ∧ b ≠ 0 ∧
          (Node.entry (r.1 + k) : PageNode) = .entry (b - 1)) := by
        rintro ⟨-, h1, h2⟩
        have := Node.entry.inj h2
        omega
      rw [if_neg hcond, if_neg htouch]
      refine ⟨mem, rfl, rfl, fun _ => rfl, ?_⟩
      simpa using hnotes

/-- The step that joins the run behind `base` to it. -/
theorem mergeNext_spec {N b n : Nat} {mem : PageMem Unit} {A B : List Seg} {le : PageNode}
    (hle : (nodesOf B ++ [freeList]).head? = some le) (hA : ∀ t ∈ A, t.1 + t.2 ≤ b)
    (hB : Separated B) (hBb : ∀ t ∈ B, b + n ≤ t.1) (hBN : ∀ t ∈ B, t.1 + t.2 ≤ N)
    (hN : b + n ≤ N) (hN' : N < 2 ^ 32) (hn : 0 < n) (hApos : ∀ t ∈ A, 0 < t.2)
    (hnotes : Notes N mem (A ++ (b, n) :: B)) :
    (mergeNext mem b n le).links = mem.links ∧ SameReserved mem (mergeNext mem b n le) ∧
      Notes N (mergeNext mem b n le) (A ++ joinNext (b, n) B) := by
  unfold mergeNext
  cases B with
  | nil =>
    obtain rfl : freeList = le := by simpa [nodesOf, cellsOf] using hle
    rw [if_neg (by simp)]
    exact ⟨rfl, fun _ => rfl, hnotes⟩
  | cons t B =>
    obtain ⟨hpos, -, htB⟩ := Separated.cons_iff.mp hB
    obtain ⟨k, hk⟩ : ∃ k, t.2 = k + 1 := ⟨t.2 - 1, by omega⟩
    have htN := hBN t List.mem_cons_self
    have hbt := hBb t List.mem_cons_self
    obtain rfl : .entry t.1 = le := by
      have ht : t = (t.1, k + 1) := by rw [← hk]
      rw [nodesOf_cons, ht, nodes_succ] at hle
      simpa using hle
    rw [joinNext_cons]
    by_cases htouch : b + n = t.1
    · have hA1 : ∀ u ∈ A, u.1 < b := fun u hu => by
        have := hA u hu
        have := hApos u hu
        omega
      have htB1 : ∀ u ∈ B, t.1 < u.1 := fun u hu => by
        have := htB u hu
        omega
      have hpair := headLen_pair (m := n) (n := t.2) (by omega : b < t.1) hA1 htB1
      have hb1 := hnotes b (by omega)
      have ht1 := hnotes t.1 (by omega)
      rw [hpair.1] at hb1
      rw [hpair.2] at ht1
      rw [if_pos (congrArg _ htouch.symm), if_pos htouch]
      have hjoin : Absorbs mem (((mem.modify (.entry b) (Page.setNum
          (u32 ((mem.page (.entry b)).num + (mem.page (.entry t.1)).num)))).modify (.entry t.1)
          (Page.clearFlag pgNcount)).modify (.entry t.1) (Page.setNum 0)) b t.1 (n + t.2) := by
        have hne : (Node.entry b : PageNode) ≠ .entry t.1 := fun e => by
          have := Node.entry.inj e
          omega
        unfold Absorbs
        rw [hb1.1, ht1.1]
        simp only [PageMem.modify, Function.update_self, Function.update_idem,
          u32_of_lt (n := n + t.2) (by omega), Function.update_of_ne hne.symm]
      exact ⟨rfl, hjoin.reserved, hjoin.notes (by omega) hA1 htB1 hn hnotes⟩
    · rw [if_neg (fun e => htouch (Node.entry.inj e).symm), if_neg htouch]
      exact ⟨rfl, fun _ => rfl, hnotes⟩

/-- The descriptor of `base` after `ff_free_pages`'s first writes. -/
theorem freeHead_notes {N b n : Nat} {mem : PageMem Unit} {A B : List Seg}
    (hA : ∀ t ∈ A, t.1 < b) (hB : ∀ t ∈ B, b < t.1) (hn : 0 < n)
    (hnotes : Notes N mem (A ++ B)) :
    Notes N (((mem.modify (.entry b) (Page.setRef 0)).modify (.entry b)
      (Page.setFlag pgNcount)).modify (.entry b) (Page.setNum n)) (A ++ (b, n) :: B) := by
  intro i hi
  have hi1 := hnotes i hi
  rw [headLen_append] at hi1 ⊢
  rw [headLen]
  simp only [PageMem.modify, Function.update_self, Function.update_idem, Function.update_apply,
    Node.entry.injEq]
  by_cases h : i = b
  · subst h
    rw [headLen_eq_zero fun t ht => (hA t ht).ne, headLen_eq_zero fun t ht => (hB t ht).ne']
    simp [hn]
  · simpa [h, Ne.symm h] using hi1

/-- They leave `PG_RESERVED` as it is. -/
theorem freeHead_reserved (mem : PageMem Unit) (b n : Nat) :
    SameReserved mem (((mem.modify (.entry b) (Page.setRef 0)).modify (.entry b)
      (Page.setFlag pgNcount)).modify (.entry b) (Page.setNum n)) := by
  intro i
  simp only [PageMem.modify, Function.update_self, Function.update_idem, Function.update_apply,
    Node.entry.injEq]
  split_ifs with hi
  · simp [hi]
  · rfl

/-- The first loop ends, at the first page of `B` or at the end of the list. -/
theorem Rep.scan_above {A B : List Seg} {b : Nat} (h : Rep M s (A ++ B))
    (hA : ∀ t ∈ A, t.1 + t.2 ≤ b) (hB : ∀ t ∈ B, b < t.1) :
    ∃ le? le, s.mem.links.scan freeList (above b) (s.phyPageCount + 1)
        (s.mem.links.next freeList) = some le? ∧
      le?.getD freeList = le ∧ (nodesOf B ++ [freeList]).head? = some le := by
  have hlen : (nodesOf (A ++ B)).length < s.phyPageCount + 1 := by
    rw [nodesOf_length, h.count]
    have := h.total_le
    omega
  have hscan := h.ring.scan (above b) hlen
  rw [find_above hA hB] at hscan
  refine ⟨_, _, hscan, rfl, ?_⟩
  cases nodesOf B <;> rfl

/-- The pages of a gap between the runs are not on the list. -/
theorem notMem_nodesOf {A B : List Seg} {b n : Nat} (hA : ∀ t ∈ A, t.1 + t.2 ≤ b)
    (hB : ∀ t ∈ B, b + n ≤ t.1) : ∀ i, b ≤ i → i < b + n →
      (Node.entry i : PageNode) ∉ nodesOf A ++ nodesOf B := by
  intro i h1 h2 hm
  rw [← nodesOf_append, entry_mem_nodesOf] at hm
  obtain ⟨t, ht, hit⟩ := hm
  rw [Seg.mem_cells] at hit
  rcases List.mem_append.mp ht with ht | ht
  · have := hA t ht
    omega
  · have := hB t ht
    omega

/-- **`ff_free_pages` of pages that are not free gives the run back.** -/
theorem ffFreePages_rep {A B : List Seg} {b n : Nat} (h : Rep M s (A ++ B)) (hn : 0 < n)
    (hN : b + n ≤ M.count) (hA : ∀ t ∈ A, t.1 + t.2 ≤ b) (hB : ∀ t ∈ B, b + n ≤ t.1)
    (hres : (s.mem.page (.entry b)).isReserved = false) :
    ∃ s', ffFreePages M.start s (M.addr b) n = .ok s' ∧ Rep M s' (giveBack A (b, n) B) ∧
      SameReserved s.mem s'.mem := by
  have hlt := M.count_lt
  have hA1 : ∀ t ∈ A, t.1 < b := fun t ht => by
    have := hA t ht
    have := h.runs.pos t (List.mem_append_left _ ht)
    omega
  have hB1 : ∀ t ∈ B, b < t.1 := fun t ht => by
    have := hB t ht
    omega
  obtain ⟨hsA, hsB, -⟩ := Separated.append_iff.mp h.runs
  have hsep := giveBack_separated (s := (b, n)) h.runs hn hA hB
  have hin := giveBack_inside hsep hN h.inside
  have htot := hsep.total_le (Nat.zero_le M.count) fun t ht => ⟨Nat.zero_le _, hin t ht⟩
  rw [giveBack_total] at htot
  have hnow : s.phyPageNowCount = total A + total B := h.now.trans (total_append A B)
  -- the head of the run
  have hnotes := freeHead_notes hA1 hB1 hn h.notes
  set mem := ((s.mem.modify (.entry b) (Page.setRef 0)).modify (.entry b)
    (Page.setFlag pgNcount)).modify (.entry b) (Page.setNum n) with hmem
  have hlinks : mem.links = s.mem.links := rfl
  have hresv : SameReserved s.mem mem := freeHead_reserved s.mem b n
  -- the place in the list
  obtain ⟨le?, le, hscan, hget, hle⟩ := h.scan_above hA hB1
  -- the pages of the run are linked in
  have hring := h.ring
  rw [nodesOf_append, ← hlinks] at hring
  obtain ⟨i1, i2⟩ := insertPages_spec hle n b mem (nodesOf A) hring
    (notMem_nodesOf hA hB)
  have hnotes2 : Notes M.count (insertPages mem b n le) (A ++ (b, n) :: B) := by
    intro i hi
    rw [i2]
    exact hnotes i hi
  -- and joined to the runs they touch
  obtain ⟨n1, n2, n3⟩ := mergeNext_spec hle hA hsB hB
    (fun t ht => h.inside t (List.mem_append_right _ ht)) hN (by omega) hn
    (fun t ht => h.runs.pos t (List.mem_append_left _ ht)) hnotes2
  obtain ⟨m, B', j1, j2, j3, j4, j5⟩ := giveBack_next A (b, n) B
  have hm : b + m ≤ M.count := by
    rcases j5 with hm | ⟨t, ht, e⟩
    · rw [hm]
      exact hN
    · have := h.inside t (List.mem_append_right _ ht)
      simp only at e
      omega
  have hring3 : LinkRing (mergeNext (insertPages mem b n le) b n le).links freeList
      (nodesOf A ++ .entry b :: (nodes (b + 1, n - 1) ++ nodesOf B)) := by
    have hnodes : nodes (b, n) = .entry b :: nodes (b + 1, n - 1) := by
      rw [← nodes_succ, Nat.sub_add_cancel hn]
    rw [n1]
    rw [hnodes] at i1
    simpa using i1
  have hlenA : (nodesOf A).length < s.phyPageCount + 1 := by
    rw [nodesOf_length, h.count]
    omega
  obtain ⟨mem', p1, p2, p3, p4⟩ := mergePrev_spec hring3 hsA hA (fun t ht => hB1 t (j4 t ht)) hm
    (by omega) (by simp only at j3; omega) hlenA (j1 ▸ n3)
  refine ⟨{ s with mem := mem', phyPageNowCount := u32 (s.phyPageNowCount + n) }, ?_,
    ⟨?_, hsep, hin, ?_, h.count, ?_⟩, fun i => ?_⟩
  · unfold ffFreePages
    rw [if_neg (by omega), M.addrToPage_eq (by omega)]
    simp only [bind, Except.bind, kassert, hres, Bool.not_false, if_true, ← hmem]
    rw [hlinks, hscan]
    simp only [hget, p1]
  · have hgb : nodesOf (giveBack A (b, n) B) = nodesOf A ++ nodes (b, n) ++ nodesOf B := by
      simp only [nodesOf, nodes, giveBack_cells, List.map_append, List.append_assoc]
    rw [hgb]
    exact p2 ▸ n1 ▸ i1
  · rw [j2]
    exact p4
  · show u32 (s.phyPageNowCount + n) = total (giveBack A (b, n) B)
    rw [giveBack_total, hnow, u32_of_lt (by omega)]
    omega
  · rw [p3 i, n2 i, i2, hresv i]

/-- The same for pages apart from all the free runs: these lie on either side. -/
theorem ffFreePages_apart {b n : Nat} (h : Rep M s l) (hn : 0 < n) (hN : b + n ≤ M.count)
    (hdis : ∀ t ∈ l, Disjoint t.cells (Seg.cells (b, n)))
    (hres : (s.mem.page (.entry b)).isReserved = false) :
    ∃ A B s', l = A ++ B ∧ ffFreePages M.start s (M.addr b) n = .ok s' ∧
      Rep M s' (giveBack A (b, n) B) ∧ SameReserved s.mem s'.mem := by
  have hgap : ∀ t ∈ l, t.1 + t.2 ≤ b ∨ b + n ≤ t.1 := by
    intro t ht
    have hd := Set.disjoint_left.mp (hdis t ht)
    have h1 := @hd t.1
    have h2 := @hd b
    have hpos := h.runs.pos t ht
    simp only [Seg.mem_cells] at h1 h2
    omega
  obtain ⟨A, B, rfl, hA, hB⟩ := h.runs.exists_split (b := b) fun t ht => by
    have := hgap t ht
    omega
  have hB' : ∀ t ∈ B, b + n ≤ t.1 := fun t ht => by
    have := hgap t (List.mem_append_right _ ht)
    have := hB t ht
    omega
  obtain ⟨s', f1, f2, f3⟩ := ffFreePages_rep h hn hN hA hB' hres
  exact ⟨A, B, s', rfl, f1, f2, f3⟩

end Hurlex.FirstFit
