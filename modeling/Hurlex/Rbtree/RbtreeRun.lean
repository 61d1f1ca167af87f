import Hurlex.Rbtree.RbtreeSearch

/-!
# A tree over its whole life

A caller keeps pages in a tree: it inserts pages, erases them and puts one in the place of another.
What it gets is an ordered list (`onList`): whatever the sequence of calls, every call returns, with
what the list says, and the tree in memory holds the nodes of the list in its order, balanced
(`rbCalls_rep`). Nodes are aligned 32-bit addresses, so a tree is never more than 60 high
(`height_le_sixty`), and no loop takes more than 64 turns.
-/

namespace Hurlex

open Lib.RedBlack

/-- What a caller does with its tree. -/
inductive RbOp where
  | insert (node : RbPtr)
  | erase (node : RbPtr)
  | replace (victim new : RbPtr)
  deriving DecidableEq, Repr

section Calls

variable (offset : RbPtr → BitVec 32) (turns : Nat)

/-- One call, with the value it returns. -/
def rbCall : RbOp → RbM RbPtr
  | .insert node => rbInsertPageCache offset turns (offset node) node
  | .erase node => do
    rbErase turns node
    return 0
  | .replace victim new => do
    rbReplaceNode victim new
    return 0

def rbCalls : List RbOp → RbM (List RbPtr)
  | [] => return []
  | op :: ops => do
    let v ← rbCall offset turns op
    let vs ← rbCalls ops
    return v :: vs

/-- A call on the ordered list of the nodes. -/
def onList : RbOp → List RbPtr → RbPtr × List RbPtr
  | .insert b, xs =>
    match xs.find? fun x => offset x == offset b with
    | some x => (x, xs)
    | none => (0, xs.orderedInsert (fun x y => offset x ≤ offset y) b)
  | .erase a, xs => (0, xs.erase a)
  | .replace a b, xs => (0, xs.map fun x => if x = a then b else x)

def onListAll : List RbOp → List RbPtr → List RbPtr × List RbPtr
  | [], xs => ([], xs)
  | op :: ops, xs =>
    let (v, ys) := onList offset op xs
    let (vs, zs) := onListAll ops ys
    (v :: vs, zs)

end Calls

/-- A node the caller may link: in memory, not `NULL`, aligned, and not in the tree. -/
def Linkable (node : RbPtr → Option RbNode) (xs : List RbPtr) (b : RbPtr) : Prop :=
  b ∉ xs ∧ b ≠ 0 ∧ Aligned b ∧ (node b).isSome

/-- What the caller owes to each call. -/
def Allowed (offset : RbPtr → BitVec 32) (node : RbPtr → Option RbNode) (xs : List RbPtr) :
    RbOp → Prop
  | .insert b => Linkable node xs b
  | .erase a => a ∈ xs
  | .replace a b => a ∈ xs ∧ Linkable node xs b ∧ offset b = offset a

def AllAllowed (offset : RbPtr → BitVec 32) (node : RbPtr → Option RbNode) :
    List RbOp → List RbPtr → Prop
  | [], _ => True
  | op :: ops, xs => Allowed offset node xs op ∧ AllAllowed offset node ops (onList offset op xs).2

/-- The nodes a call names. -/
def RbOp.nodes : RbOp → List RbPtr
  | .insert b => [b]
  | .erase a => [a]
  | .replace a b => [a, b]

/-- The store holds a balanced tree of the nodes `xs` in the order of their offsets, and every node
that was in memory is. -/
structure HoldsList (offset : RbPtr → BitVec 32) (node : RbPtr → Option RbNode) (s : RbState)
    (xs : List RbPtr) (T : RbTree RbPtr) (m : Nat) : Prop where
  rep : Rep s T
  list : T.toList = xs
  ordered : Ordered offset xs
  bal : T.Bal m
  black : T.color = .black
  memory : ∀ a, (node a).isSome → (s.node a).isSome

section Run

variable {offset : RbPtr → BitVec 32} {node : RbPtr → Option RbNode} {s s' : RbState}
  {xs ys : List RbPtr} {T : RbTree RbPtr} {m turns : Nat} {a b : RbPtr}

/-- Distinct aligned addresses are at most `2 ^ 30`. -/
theorem length_le_of_placed (h : Placed xs) : xs.length ≤ 1073741824 := by
  have hmod : ∀ a ∈ xs, a.toNat % 4 = 0 := fun a ha => by
    have h3 := congrArg BitVec.toNat (h.2 a ha).2
    rw [BitVec.toNat_and] at h3
    exact (Nat.and_two_pow_sub_one_eq_mod a.toNat 2).symm.trans h3
  have hnodup : (xs.map fun a => a.toNat / 4).Nodup := by
    refine List.Nodup.map_on (fun a ha b hb e => BitVec.eq_of_toNat_eq ?_) h.1
    have h1 := hmod a ha
    have h2 := hmod b hb
    omega
  have hsub : (xs.map fun a => a.toNat / 4) ⊆ List.range 1073741824 := by
    intro k hk
    obtain ⟨a, -, rfl⟩ := List.mem_map.mp hk
    have := a.isLt
    rw [List.mem_range]
    omega
  have := (List.subperm_of_subset hnodup hsub).length_le
  rwa [List.length_map, List.length_range] at this

/-- **A balanced tree in memory is at most 60 high.** -/
theorem height_le_sixty (h : Rep s T) (hb : T.Bal m) (hc : T.color = .black) : T.height ≤ 60 := by
  have hh := hb.height_le_log hc
  have hlen := length_le_of_placed h.placed
  have hlog : Nat.log 2 (T.toList.length + 1) < 31 :=
    Nat.log_lt_of_lt_pow (by omega) (by rw [show 2 ^ 31 = 2147483648 from rfl]; omega)
  omega

theorem orderedInsert_middle (hx : ∀ x ∈ xs, offset x < offset b)
    (hy : ∀ y ∈ ys, offset b < offset y) :
    (xs ++ ys).orderedInsert (fun x y => offset x ≤ offset y) b = xs ++ b :: ys := by
  induction xs with
  | nil =>
    cases ys with
    | nil => rfl
    | cons y ys =>
      exact List.orderedInsert_cons_of_le _ _ (BitVec.le_of_lt (hy y List.mem_cons_self))
  | cons x xs ih =>
    have hlt := hx x List.mem_cons_self
    have hnle : ¬ offset b ≤ offset x := by bv_omega
    rw [List.cons_append, List.orderedInsert, if_neg hnle,
      ih fun z hz => hx z (List.mem_cons_of_mem _ hz), List.cons_append]

theorem find_eq_some (ho : Ordered offset xs) (ha : a ∈ xs) (hk : offset a = offset b) :
    xs.find? (fun x => offset x == offset b) = some a := by
  obtain ⟨us, vs, rfl⟩ := List.append_of_mem ha
  rw [find_node ho, if_neg (hk ▸ BitVec.lt_irrefl _), if_neg (hk ▸ BitVec.lt_irrefl _)]

theorem Ordered.insert (ho : Ordered offset (xs ++ ys)) (hx : ∀ x ∈ xs, offset x < offset b)
    (hy : ∀ y ∈ ys, offset b < offset y) : Ordered offset (xs ++ b :: ys) := by
  obtain ⟨h1, h2, h3⟩ := List.pairwise_append.mp ho
  refine List.pairwise_append.mpr ⟨h1, List.pairwise_cons.mpr ⟨hy, h2⟩, fun x hx' y hy' => ?_⟩
  obtain rfl | hy' := List.mem_cons.mp hy'
  · exact hx x hx'
  · exact h3 x hx' y hy'

theorem map_replace (h : (xs ++ a :: ys).Nodup) (b : RbPtr) :
    (xs ++ a :: ys).map (fun x => if x = a then b else x) = xs ++ b :: ys := by
  have hx : ∀ x ∈ xs, x ≠ a := fun x hx e =>
    (List.nodup_append.mp h).2.2 x hx a List.mem_cons_self e
  have hy : ∀ y ∈ ys, y ≠ a := fun y hy e =>
    (List.nodup_cons.mp (List.nodup_append.mp h).2.1).1 (e ▸ hy)
  have hid : ∀ zs : List RbPtr, (∀ z ∈ zs, z ≠ a) →
      zs.map (fun x => if x = a then b else x) = zs := fun zs hz => by
    rw [List.map_congr_left fun z hm => if_neg (hz z hm), List.map_id']
  rw [List.map_append, List.map_cons, if_pos rfl, hid xs hx, hid ys hy]

/-- A tree's balance does not depend on its elements. -/
theorem bal_replace {c : Color} {l r : RbTree RbPtr} {p : List (Frame RbPtr)}
    (hb : (plug (RbTree.node c l a r) p).Bal m) (hc : (plug (RbTree.node c l a r) p).color = .black) :
    ∃ k, (plug (RbTree.node c l b r) p).Bal k ∧ (plug (RbTree.node c l b r) p).color = .black := by
  obtain ⟨n, hn, hp, habove⟩ := OnPath.of_plug hb hc
  have hn' : (RbTree.node c l b r).Bal n := by cases c <;> exact hn
  exact hp.plug hn' habove

/-- What is in memory stays there: the nodes of the new tree are, and no other node was written. -/
theorem memory_kept {T' : RbTree RbPtr} (h : Rep s' T') (hk : Keeps T'.toList s s') (a : RbPtr)
    (ha : (s.node a).isSome) : (s'.node a).isSome := by
  by_cases hm : a ∈ T'.toList
  · obtain ⟨c, l, r, p, rfl⟩ := exists_plug_of_mem hm
    have h' : Rep s' (plug (RbTree.join .left c a l r) p) := h
    rw [h'.node]
    rfl
  · rwa [hk a hm]

end Run

section Step

variable {offset : RbPtr → BitVec 32} {node : RbPtr → Option RbNode} {s : RbState}
  {xs : List RbPtr} {T : RbTree RbPtr} {m turns : Nat} {op : RbOp}

/-- **One call** returns what the list says, and leaves a tree of what the list holds then. -/
theorem rbCall_rep (h : HoldsList offset node s xs T m) (hop : Allowed offset node xs op)
    (hn : 64 ≤ turns) :
    ∃ s' T' m', rbCall offset turns op s = some ((onList offset op xs).1, s') ∧
      HoldsList offset node s' (onList offset op xs).2 T' m' ∧
      ∀ w, w ∉ xs → w ∉ op.nodes → s'.node w = s.node w := by
  obtain ⟨hrep, rfl, hord, hbal, hblack, hmem⟩ := h
  have hheight := height_le_sixty hrep hbal hblack
  have hturn : T.height < turns := by omega
  cases op with
  | insert b =>
    obtain ⟨hb, hb0, hba, hbn⟩ := hop
    obtain ⟨n, hn'⟩ := Option.isSome_iff_exists.mp (hmem b hbn)
    obtain ⟨x, hx, hk, e⟩ | ⟨xs, ys, s', T', m', hT, hlt, hgt, e, h', hT', hm', hc', hkeep⟩ :=
      rbInsertPageCache_rep hrep hbal hblack hord hturn hb hb0 hba hn'
    · -- the offset is there
      refine ⟨s, T, m, ?_, ?_, fun _ _ _ => rfl⟩
      · rw [rbCall, e, onList, find_eq_some hord hx hk]
      · rw [onList, find_eq_some hord hx hk]
        exact ⟨hrep, rfl, hord, hbal, hblack, hmem⟩
    · -- the offset is new
      have hfind : T.toList.find? (fun x => offset x == offset b) = none := by
        rw [hT]
        refine find_eq_none fun x hx => ?_
        obtain hx | hx := List.mem_append.mp hx
        · exact .inr (hlt x hx)
        · exact .inl (hgt x hx)
      have hins : T.toList.orderedInsert (fun x y => offset x ≤ offset y) b = xs ++ b :: ys := by
        rw [hT, orderedInsert_middle hlt hgt]
      rw [hT] at hord
      refine ⟨s', T', m', ?_, ?_, fun w hw hwb => hkeep w fun hm => ?_⟩
      · rw [rbCall, e, onList, hfind]
      · rw [onList, hfind]
        exact ⟨h', hT'.trans hins.symm, hins ▸ hord.insert hlt hgt, hm', hc',
          fun w hw => memory_kept h' hkeep w (hmem w hw)⟩
      · rw [hT'] at hm
        rw [hT] at hw
        simp only [RbOp.nodes, List.mem_append, List.mem_cons] at hw hwb hm
        tauto
  | erase a =>
    obtain ⟨s', T', m', e, h', hT', hm', hc', hkeep⟩ :=
      rbErase_rep hrep hbal hblack hop hturn.le
    refine ⟨s', T', m', ?_, ⟨h', hT', ?_, hm', hc', fun w hw => memory_kept h' hkeep w (hmem w hw)⟩,
      fun w hw _ => hkeep w fun hm => hw (List.mem_of_mem_erase (hT' ▸ hm))⟩
    · rw [rbCall, rb_bind e]
      rfl
    · exact hord.sublist List.erase_sublist
  | replace a b =>
    obtain ⟨ha, ⟨hb, hb0, hba, hbn⟩, hoff⟩ := hop
    obtain ⟨n, hn'⟩ := Option.isSome_iff_exists.mp (hmem b hbn)
    obtain ⟨c, l, r, p, rfl⟩ := exists_plug_of_mem ha
    obtain ⟨s', e, h', hkeep⟩ := rbReplaceNode_rep hrep hb hb0 hba hn'
    obtain ⟨k, hk, hc'⟩ := bal_replace (b := b) hbal hblack
    have hsplit : ∀ x : RbPtr, (plug (RbTree.node c l x r) p).toList =
        (before p ++ l.toList) ++ x :: (r.toList ++ after p) := fun x => by
      rw [toList_plug]
      simp [RbTree.toList]
    have hlist : (plug (RbTree.node c l b r) p).toList =
        (plug (RbTree.node c l a r) p).toList.map fun x => if x = a then b else x := by
      have hnd := hrep.placed.1
      rw [hsplit a] at hnd ⊢
      rw [map_replace hnd, hsplit b]
    refine ⟨s', _, k, ?_, ⟨h', hlist, ?_, hk, hc', fun w hw => memory_kept h' hkeep w (hmem w hw)⟩,
      fun w hw hwn => hkeep w fun hm => ?_⟩
    · rw [rbCall, rb_bind e]
      rfl
    · have hsame : ∀ x : RbPtr, offset (if x = a then b else x) = offset x := fun x => by
        split
        case isTrue hx => rw [hx, hoff]
        case isFalse => rfl
      rw [onList, Ordered, List.pairwise_map]
      simp only [hsame]
      exact hord
    · rw [hsplit b] at hm
      rw [hsplit a] at hw
      simp only [RbOp.nodes, List.mem_append, List.mem_cons, List.not_mem_nil, or_false] at hw hwn hm
      tauto

theorem mem_onList {w : RbPtr} (hw : w ∈ (onList offset op xs).2) : w ∈ xs ∨ w ∈ op.nodes := by
  cases op with
  | insert b =>
    rw [onList] at hw
    split at hw
    · exact .inl hw
    · rw [List.mem_orderedInsert] at hw
      exact hw.elim (fun e => .inr (by simp [RbOp.nodes, e])) .inl
  | erase a => exact .inl (List.mem_of_mem_erase hw)
  | replace a b =>
    obtain ⟨x, hx, rfl⟩ := List.mem_map.mp hw
    split
    · exact .inr (by simp [RbOp.nodes])
    · exact .inl hx

/-- A sequence of calls returns what the calls on the list return, and leaves a tree of what the list
holds then. -/
theorem rbCalls_rep {ops : List RbOp} (h : HoldsList offset node s xs T m)
    (hops : AllAllowed offset node ops xs) (hn : 64 ≤ turns) :
    ∃ s' T' m', rbCalls offset turns ops s = some ((onListAll offset ops xs).1, s') ∧
      HoldsList offset node s' (onListAll offset ops xs).2 T' m' ∧
      ∀ w, w ∉ xs → (∀ op ∈ ops, w ∉ op.nodes) → s'.node w = s.node w := by
  induction ops generalizing s xs T m with
  | nil => exact ⟨s, T, m, rfl, h, fun _ _ _ => rfl⟩
  | cons op ops ih =>
    obtain ⟨s1, T1, m1, e1, h1, k1⟩ := rbCall_rep h hops.1 hn
    obtain ⟨s2, T2, m2, e2, h2, k2⟩ := ih h1 hops.2
    refine ⟨s2, T2, m2, ?_, h2, fun w hw hws => ?_⟩
    · rw [rbCalls, rb_bind e1, rb_bind e2]
      rfl
    · have hop := hws op List.mem_cons_self
      rw [k2 w (fun hm => (mem_onList hm).elim hw hop) fun o ho => hws o (List.mem_cons_of_mem _ ho),
        k1 w hw hop]

/-- `RB_ROOT` holds no node. -/
theorem holdsList_init (offset : RbPtr → BitVec 32) (node : RbPtr → Option RbNode) :
    HoldsList offset node (rbRootInit node) [] .leaf 0 :=
  ⟨⟨rfl, trivial, List.nodup_nil, by simp [RbTree.toList]⟩, rfl, List.Pairwise.nil, rfl, rfl,
    fun _ => id⟩

/-- **A tree over its whole life.** From `RB_ROOT` on, every sequence of calls returns what the calls
on the ordered list return, no loop taking more than 64 turns. The store holds a balanced tree of the
nodes of the list in its order, at most 60 high, in which a search finds what is in the list, and
nodes that were never named are as they were. -/
theorem tree_lifetime (offset : RbPtr → BitVec 32) (node : RbPtr → Option RbNode) (ops : List RbOp)
    (hops : AllAllowed offset node ops []) (turns : Nat) (hn : 64 ≤ turns) :
    ∃ s T m, rbCalls offset turns ops (rbRootInit node) = some ((onListAll offset ops []).1, s) ∧
      HoldsList offset node s (onListAll offset ops []).2 T m ∧ T.height ≤ 60 ∧
      (∀ key, rbSearch offset turns key s =
        some (((onListAll offset ops []).2.find? fun x => offset x == key).getD 0, s)) ∧
      ∀ w, (∀ op ∈ ops, w ∉ op.nodes) → s.node w = node w := by
  obtain ⟨s, T, m, e, h, hk⟩ := rbCalls_rep (holdsList_init offset node) hops hn
  have hheight := height_le_sixty h.rep h.bal h.black
  refine ⟨s, T, m, e, h, hheight, fun key => ?_, fun w hw => hk w List.not_mem_nil hw⟩
  have hord : Ordered offset T.toList := by
    rw [h.list]
    exact h.ordered
  rw [rbSearch_rep h.rep hord (by omega), h.list]

/-- Two pages go in, one is exchanged for a third page of the same offset, the other is erased. -/
theorem tree_lifetime_three :
    let offset : RbPtr → BitVec 32 := fun a => a >>> 5
    let ops : List RbOp := [.insert 32, .insert 16, .replace 32 48, .erase 16]
    ∃ s T m, rbCalls offset 64 ops (rbRootInit smallStore.node) = some ([0, 0, 0, 0], s) ∧
      HoldsList offset smallStore.node s [48] T m ∧ T.height ≤ 60 ∧
      (∀ key, rbSearch offset 64 key s =
        some (([48].find? fun x => offset x == key).getD 0, s)) ∧
      ∀ w, (∀ op ∈ ops, w ∉ op.nodes) → s.node w = smallStore.node w := by
  intro offset ops
  have h16 : Linkable smallStore.node [32] 16 := ⟨by decide, by decide, rfl, rfl⟩
  have h32 : Linkable smallStore.node [] 32 := ⟨by decide, by decide, rfl, rfl⟩
  have h48 : Linkable smallStore.node [16, 32] 48 := ⟨by decide, by decide, rfl, rfl⟩
  have hops : AllAllowed offset smallStore.node ops [] :=
    ⟨h32, h16, ⟨by decide, h48, rfl⟩, (by decide : (16 : RbPtr) ∈ [16, 48]), trivial⟩
  exact tree_lifetime offset smallStore.node ops hops 64 (le_refl 64)

end Step

end Hurlex
