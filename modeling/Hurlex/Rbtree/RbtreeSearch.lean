import Hurlex.Rbtree.RbtreeWalk
import Mathlib.Data.List.Sort

/-!
# Searching and inserting (`include/lib/rbtree.h`)

The header leaves the search to its callers and shows how it is written: `rb_search_page_cache` and
`rb_insert_page_cache`, for pages ordered by their `offset`. The offset of the page a node lies in is
the parameter `offset` here. A search over an ordered tree is `List.find?` on its nodes
(`rbSearch_rep`), an insertion refuses an offset that is there and puts any other in its place
(`rbInsertPageCache_rep`).
-/

namespace Hurlex

open Lib.RedBlack

section Calls

variable (offset : RbPtr → BitVec 32)

/-- The loop of `rb_search_page_cache`. -/
def rbSearchFrom : Nat → BitVec 32 → RbPtr → RbM RbPtr
  | 0, _, _ => fun _ => none
  | turns + 1, key, n => do
    if n ≠ 0 then
      if key < offset n then rbSearchFrom turns key (← rbChild .left n)
      else if key > offset n then rbSearchFrom turns key (← rbChild .right n)
      else return n
    else
      return 0

/-- `rb_search_page_cache`. -/
def rbSearch (turns : Nat) (key : BitVec 32) : RbM RbPtr := do
  rbSearchFrom offset turns key (← rbRoot)

/-- The loop of `__rb_insert_page_cache`: the node found, or `NULL`; and the values of `parent` and
`p` after it. -/
def rbInsertFind : Nat → BitVec 32 → RbPtr → RbLink → RbM (RbPtr × RbPtr × RbLink)
  | 0, _, _, _ => fun _ => none
  | turns + 1, key, parent, p => do
    let n ← rbFollow p
    if n ≠ 0 then
      if key < offset n then rbInsertFind turns key n (.child n .left)
      else if key > offset n then rbInsertFind turns key n (.child n .right)
      else return (n, n, p)
    else
      return (0, parent, p)

/-- `rb_insert_page_cache`, with `__rb_insert_page_cache`. -/
def rbInsertPageCache (turns : Nat) (key : BitVec 32) (node : RbPtr) : RbM RbPtr := do
  let (page, parent, p) ← rbInsertFind offset turns key 0 .root
  if page ≠ 0 then
    return page
  else
    rbLinkNode node parent p
    rbInsertColor turns node
    return 0

end Calls

section Search

variable {offset : RbPtr → BitVec 32} {s : RbState} {key : BitVec 32} {t T : RbTree RbPtr}
  {p q : List (Frame RbPtr)} {turns : Nat}

/-- The nodes stand in the order of their offsets, no two of one offset. -/
def Ordered (offset : RbPtr → BitVec 32) (xs : List RbPtr) : Prop :=
  xs.Pairwise fun a b => offset a < offset b

theorem find_eq_none {xs : List RbPtr} (h : ∀ x ∈ xs, key < offset x ∨ offset x < key) :
    xs.find? (fun x => offset x == key) = none := by
  refine List.find?_eq_none.mpr fun x hx he => ?_
  have heq : offset x = key := by simpa using he
  have := h x hx
  rw [heq] at this
  exact this.elim (BitVec.lt_irrefl key) (BitVec.lt_irrefl key)

/-- A search at a node goes on to the only side the key can be on. -/
theorem find_node {xs ys : List RbPtr} {a : RbPtr} (ho : Ordered offset (xs ++ a :: ys)) :
    (xs ++ a :: ys).find? (fun x => offset x == key) =
      if key < offset a then xs.find? (fun x => offset x == key)
      else if key > offset a then ys.find? (fun x => offset x == key) else some a := by
  obtain ⟨-, hr, hl⟩ := List.pairwise_append.mp ho
  obtain ⟨hay, -⟩ := List.pairwise_cons.mp hr
  rw [List.find?_append]
  split
  case isTrue hk =>
    have hnone : (a :: ys).find? (fun x => offset x == key) = none := by
      refine find_eq_none fun y hy => .inl ?_
      obtain rfl | hy := List.mem_cons.mp hy
      · exact hk
      · exact BitVec.lt_trans hk (hay y hy)
    rw [hnone, Option.or_none]
  case isFalse hk =>
    split
    case isTrue hk' =>
      have hax : (a :: ys).find? (fun x => offset x == key) =
          ys.find? (fun x => offset x == key) := by
        rw [List.find?_cons_of_neg]
        have : offset a ≠ key := fun e => BitVec.lt_irrefl key (e ▸ hk')
        simpa using this
      rw [find_eq_none fun x hx => .inr (BitVec.lt_trans (hl x hx a List.mem_cons_self) hk'), hax,
        Option.none_or]
    case isFalse hk' =>
      have hka : offset a = key := by bv_omega
      rw [find_eq_none fun x hx => .inr (hka ▸ hl x hx a List.mem_cons_self), Option.none_or,
        List.find?_cons_of_pos (by simpa using hka)]

theorem rbSearchFrom_rep (h : Rep s (plug t p)) (ho : Ordered offset t.toList)
    (hn : t.height < turns) :
    rbSearchFrom offset turns key (treePtr t) s =
      some ((t.toList.find? fun x => offset x == key).getD 0, s) := by
  obtain ⟨turns, rfl⟩ : ∃ k, turns = k + 1 := ⟨turns - 1, by omega⟩
  induction t generalizing p turns with
  | leaf => rfl
  | node c l a r ihl ihr =>
    have h' : Rep s (plug (RbTree.join .left c a l r) p) := h
    have hl : Rep s (plug l (⟨.left, c, a, r⟩ :: p)) := h
    have hr : Rep s (plug r (⟨.right, c, a, l⟩ :: p)) := h
    have hright : rbChild .right a s = some (treePtr r, s) := rbChild_flip_eq h'.node
    obtain ⟨hol, hor, -⟩ := List.pairwise_append.mp ho
    simp only [RbTree.height] at hn
    obtain ⟨turns, rfl⟩ : ∃ k, turns = k + 1 := ⟨turns - 1, by omega⟩
    rw [treePtr, rbSearchFrom, if_pos h'.elem_ne_zero, RbTree.toList, find_node ho]
    split
    case isTrue => rw [rb_bind (rbChild_eq h'.node), ihl hl hol turns (by omega)]
    case isFalse =>
      split
      case isTrue =>
        rw [rb_bind hright, ihr hr (List.pairwise_cons.mp hor).2 turns (by omega)]
      case isFalse => rfl

/-- **A search finds the node of its key**, or `NULL` where there is none. -/
theorem rbSearch_rep (h : Rep s T) (ho : Ordered offset T.toList) (hn : T.height < turns) :
    rbSearch offset turns key s =
      some ((T.toList.find? fun x => offset x == key).getD 0, s) := by
  have hroot : rbRoot s = some (treePtr T, s) := by
    rw [rbRoot, h.root]
  rw [rbSearch, rb_bind hroot]
  exact rbSearchFrom_rep (p := []) h ho hn

/-! ## Insertion -/

/-- Where the pointer into a hole is kept. -/
def linkTo : List (Frame RbPtr) → RbLink
  | [] => .root
  | f :: _ => .child f.elem f.side

theorem rbFollow_rep (h : Rep s (plug t p)) : rbFollow (linkTo p) s = some (treePtr t, s) := by
  cases p with
  | nil => exact congrArg (fun v => some (v, s)) h.root
  | cons f p => exact rbChild_eq (Rep.node (p := p) h)

/-- The loop of `__rb_insert_page_cache` ends at the node of the key, or at the hole the key belongs
in. -/
theorem rbInsertFind_rep (key : BitVec 32) (h : Rep s (plug t p)) (ho : Ordered offset t.toList)
    (hn : t.height < turns) :
    (∃ x ∈ t.toList, offset x = key ∧ ∃ l,
      rbInsertFind offset turns key (parentPtr p) (linkTo p) s = some ((x, x, l), s)) ∨
    ∃ q, t = plug .leaf q ∧ (∀ x ∈ before q, offset x < key) ∧ (∀ x ∈ after q, key < offset x) ∧
      rbInsertFind offset turns key (parentPtr p) (linkTo p) s =
        some ((0, parentPtr (q ++ p), linkTo (q ++ p)), s) := by
  obtain ⟨turns, rfl⟩ : ∃ k, turns = k + 1 := ⟨turns - 1, by omega⟩
  induction t generalizing p turns with
  | leaf =>
    refine .inr ⟨[], rfl, by simp [before], by simp [after], ?_⟩
    rw [rbInsertFind, rb_bind (rbFollow_rep h)]
    rfl
  | node c l a r ihl ihr =>
    have h' : Rep s (plug (RbTree.join .left c a l r) p) := h
    have hl : Rep s (plug l (⟨.left, c, a, r⟩ :: p)) := h
    have hr : Rep s (plug r (⟨.right, c, a, l⟩ :: p)) := h
    obtain ⟨hol, hor, hlr⟩ := List.pairwise_append.mp ho
    obtain ⟨har, hor'⟩ := List.pairwise_cons.mp hor
    simp only [RbTree.height] at hn
    obtain ⟨turns, rfl⟩ : ∃ k, turns = k + 1 := ⟨turns - 1, by omega⟩
    rw [rbInsertFind, rb_bind (rbFollow_rep h), treePtr, if_pos h'.elem_ne_zero]
    split
    case isTrue hk =>
      obtain ⟨x, hx, hxk, l', e⟩ | ⟨q, rfl, hb, haf, e⟩ := ihl hl hol turns (by omega)
      · exact .inl ⟨x, by simp [RbTree.toList, hx], hxk, l', e⟩
      · refine .inr ⟨q ++ [⟨.left, c, a, r⟩], by rw [plug_append]; rfl, ?_, ?_, ?_⟩
        · rw [before_append]
          exact hb
        · rw [after_append]
          intro x hx
          simp only [after, List.mem_append, List.mem_cons, List.append_nil] at hx
          obtain hx | rfl | hx := hx
          · exact haf x hx
          · exact hk
          · exact BitVec.lt_trans hk (har x hx)
        · rw [List.append_assoc]
          exact e
    case isFalse hk =>
      split
      case isTrue hk' =>
        obtain ⟨x, hx, hxk, l', e⟩ | ⟨q, rfl, hb, haf, e⟩ := ihr hr hor' turns (by omega)
        · exact .inl ⟨x, by simp [RbTree.toList, hx], hxk, l', e⟩
        · refine .inr ⟨q ++ [⟨.right, c, a, l⟩], by rw [plug_append]; rfl, ?_, ?_, ?_⟩
          · rw [before_append]
            intro x hx
            simp only [before, List.mem_append, List.mem_cons, List.nil_append, List.not_mem_nil,
              or_false] at hx
            obtain (hx | rfl) | hx := hx
            · exact BitVec.lt_trans (hlr x hx a List.mem_cons_self) hk'
            · exact hk'
            · exact hb x hx
          · rw [after_append]
            simpa [after] using haf
          · rw [List.append_assoc]
            exact e
      case isFalse hk' =>
        have hka : offset a = key := by bv_omega
        exact .inl ⟨a, by simp [RbTree.toList], hka, _, rfl⟩

/-- **`rb_link_node`** puts a red leaf into a hole. -/
theorem rbLinkNode_rep {b : RbPtr} {n : RbNode} (h : Rep s (plug .leaf p))
    (hb : b ∉ (plug (.leaf : RbTree RbPtr) p).toList) (hb0 : b ≠ 0) (hba : Aligned b)
    (hbn : s.node b = some n) :
    ∃ s', rbLinkNode b (parentPtr p) (linkTo p) s = some ((), s') ∧
      Rep s' (plug (RbTree.node .red .leaf b .leaf) p) ∧
      Keeps (plug (RbTree.node .red .leaf b .leaf) p).toList s s' := by
  obtain ⟨-, hp, hpl⟩ := rep_plug.mp h
  have hbp : b ∉ pathNodes p := fun hm => hb ((perm_plug _ p).mem_iff.mpr hm)
  have hpl' : Placed (b :: pathNodes p) :=
    ⟨List.nodup_cons.mpr ⟨hbp, hpl.1⟩, fun w hw => by
      obtain rfl | hw := List.mem_cons.mp hw
      · exact ⟨hb0, hba⟩
      · exact hpl.2 w hw⟩
  have hplaced : Placed ((RbTree.node .red .leaf b .leaf).toList ++ pathNodes p) := hpl'
  have hcell : (⟨parentPtr p, 0, 0⟩ : RbNode) = rbCell .left (parentPtr p) .red 0 0 := by
    simp [rbCell, rbPack, rbColorBit]
  -- the fields of the new node
  have hfields : ∃ s1, (∀ k : RbM Unit, (do
        rbModify b fun n => { n with rbParentColor := parentPtr p }
        rbModify b fun n => { n with rbLeft := 0, rbRight := 0 }
        k) s = k s1) ∧
      s1.node b = some (rbCell .left (parentPtr p) .red 0 0) ∧ Keeps [b] s s1 ∧
      s1.root = s.root := by
    refine ⟨_,
      fun k => (rb_bind (rbModify_eq _ hbn)).trans (rb_bind (rbModify_eq _ (put_node_self _))),
      ?_, ?_, rfl⟩
    · rw [put_node_self, ← hcell]
    · intro w hw
      rw [put_node_of_ne _ (by simpa using hw), put_node_of_ne _ (by simpa using hw)]
  obtain ⟨s1, e1, hb1, k1, r1⟩ := hfields
  have hp1 : PathAt s1 0 p := hp.frame (fun w hw => k1 w fun hm => by
    obtain rfl : w = b := by simpa using hm
    exact hbp hw) r1
  have hsub : ∀ w, w ∉ (plug (RbTree.node .red .leaf b .leaf) p).toList → w ≠ b ∧ w ∉ pathNodes p :=
    fun w hw => by
      rw [(perm_plug _ p).mem_iff] at hw
      simpa [RbTree.toList] using hw
  rw [rbLinkNode, e1]
  cases p with
  | nil =>
    refine ⟨{ s1 with root := b }, rfl, rep_plug.mpr ⟨⟨hb1, trivial, trivial⟩, rfl, hplaced⟩, ?_⟩
    intro w hw
    exact k1 w (by simpa using (hsub w hw).1)
  | cons f p =>
    obtain ⟨hf, hfs, hfp⟩ := hp1
    have hn := hpl'.1
    simp only [pathNodes, List.nodup_cons, List.mem_cons, List.mem_append, not_or] at hn
    obtain ⟨⟨hbf, -⟩, ⟨hfes, hfep⟩, -⟩ := hn
    refine ⟨_, rbSetChild_eq hf b, rep_plug.mpr ⟨⟨(put_node_of_ne _ hbf).trans hb1, trivial, trivial⟩,
      ⟨put_node_self _, hfs.put _ hfes, hfp.put _ hfep⟩, hplaced⟩, ?_⟩
    intro w hw
    obtain ⟨hwb, hwp⟩ := hsub w hw
    have hwf : w ≠ f.elem := fun e => hwp (by simp [e, pathNodes])
    rw [put_node_of_ne _ hwf, k1 w (by simpa using hwb)]

/-- **`rb_link_node` and `rb_insert_color`** at any free place of a balanced tree: a balanced tree
with the new node in that place of the order. -/
theorem rbInsertAt_rep {b : RbPtr} {n : RbNode} {m : Nat} {q : List (Frame RbPtr)}
    (h : Rep s (plug .leaf q)) (hbal : (plug (.leaf : RbTree RbPtr) q).Bal m)
    (hc : (plug (.leaf : RbTree RbPtr) q).color = .black) (hn : q.length < turns)
    (hb : b ∉ (plug (.leaf : RbTree RbPtr) q).toList) (hb0 : b ≠ 0) (hba : Aligned b)
    (hbn : s.node b = some n) :
    ∃ s' T' m', (do rbLinkNode b (parentPtr q) (linkTo q); rbInsertColor turns b) s =
        some ((), s') ∧
      Rep s' T' ∧ T'.toList = before q ++ b :: after q ∧ T'.Bal m' ∧ T'.color = .black ∧
      Keeps T'.toList s s' := by
  obtain ⟨k, hleaf, hq, -⟩ := OnPath.of_plug hbal hc
  obtain rfl : k = 0 := hleaf
  obtain ⟨s1, e1, h1, k1⟩ := rbLinkNode_rep h hb hb0 hba hbn
  obtain ⟨s2, e2, r2⟩ := rbInsertColor_rep h1 (by simp) (rooted_of_onPath hq)
    (show q.length / 2 < turns by omega)
  have hred : (RbTree.node .red .leaf b .leaf).Bal 0 := ⟨⟨rfl, rfl⟩, rfl, rfl⟩
  obtain ⟨m', hm', hblack⟩ := bal_insertFix hred rfl hq
  refine ⟨s2, _, m', (rb_bind e1).trans e2, r2.rep, ?_, hm', hblack, ?_⟩
  · rw [toList_insertFix, toList_plug]
    rfl
  · rw [r2.order]
    exact k1.trans r2.keeps

theorem rbInsertAt_rep_right : ∃ s' T' m',
    (do rbLinkNode 48 32 (.child 32 .right); rbInsertColor 2 48) smallStore = some ((), s') ∧
      Rep s' T' ∧ T'.toList = [16, 32] ++ 48 :: [] ∧ T'.Bal m' ∧ T'.color = .black ∧
      Keeps T'.toList smallStore s' :=
  rbInsertAt_rep (q := [⟨.right, .black, 32, .node .red .leaf 16 .leaf⟩]) smallStore_rep smallTree_bal
    rfl (by decide) (by decide) (by decide) rfl rfl

theorem rbInsertFind_root (key : BitVec 32) (h : Rep s T) (ho : Ordered offset T.toList)
    (hn : T.height < turns) :
    (∃ x ∈ T.toList, offset x = key ∧ ∃ l,
      rbInsertFind offset turns key 0 .root s = some ((x, x, l), s)) ∨
    ∃ q, T = plug .leaf q ∧ (∀ x ∈ before q, offset x < key) ∧ (∀ x ∈ after q, key < offset x) ∧
      rbInsertFind offset turns key 0 .root s = some ((0, parentPtr q, linkTo q), s) := by
  have hroot : Rep s (plug T []) := h
  simpa only [List.append_nil, parentPtr, linkTo] using rbInsertFind_rep key hroot ho hn

/-- **`rb_insert_page_cache`**: an offset that is in the tree is refused with the node that has it,
and nothing is written; a node of another offset is put in its place in a balanced tree. -/
theorem rbInsertPageCache_rep {b : RbPtr} {n : RbNode} {m : Nat} (h : Rep s T) (hbal : T.Bal m)
    (hc : T.color = .black) (ho : Ordered offset T.toList) (hn : T.height < turns)
    (hb : b ∉ T.toList) (hb0 : b ≠ 0) (hba : Aligned b) (hbn : s.node b = some n) :
    (∃ x ∈ T.toList, offset x = offset b ∧
      rbInsertPageCache offset turns (offset b) b s = some (x, s)) ∨
    ∃ xs ys s' T' m', T.toList = xs ++ ys ∧ (∀ x ∈ xs, offset x < offset b) ∧
      (∀ y ∈ ys, offset b < offset y) ∧
      rbInsertPageCache offset turns (offset b) b s = some (0, s') ∧ Rep s' T' ∧
      T'.toList = xs ++ b :: ys ∧ T'.Bal m' ∧ T'.color = .black ∧ Keeps T'.toList s s' := by
  obtain ⟨x, hx, hk, l, e⟩ | ⟨q, rfl, hbf, haf, e⟩ := rbInsertFind_root (offset b) h ho hn
  · refine .inl ⟨x, hx, hk, ?_⟩
    rw [rbInsertPageCache, rb_bind e]
    exact congrFun (if_pos (h.placed.2 x hx).1) s
  · have hheight := height_plug (.leaf : RbTree RbPtr) q
    obtain ⟨s', T', m', e2, h', hT', hm', hc', hk⟩ :=
      rbInsertAt_rep h hbal hc (show q.length < turns by omega) hb hb0 hba hbn
    refine .inr ⟨before q, after q, s', T', m', ?_, hbf, haf, ?_, h', hT', hm', hc', hk⟩
    · rw [toList_plug]
      rfl
    · rw [rbInsertPageCache, rb_bind e]
      simp only [ne_eq, not_true_eq_false, if_false]
      exact (congrFun (bind_assoc (rbLinkNode b (parentPtr q) (linkTo q))
        (fun _ => rbInsertColor turns b) (fun _ => pure 0)).symm s).trans (rb_bind e2)

end Search

end Hurlex
