import Hurlex.Rbtree.RbtreeErase

/-!
# `rb_first`, `rb_last`, `rb_next`, `rb_prev`, `rb_replace_node`

The walking calls read the order of the tree off its pointers: `rb_first` and `rb_last` are its ends,
`rb_next` and `rb_prev` the neighbours of a node, `NULL` beyond the ends (`walk_neighbours`). They
write nothing. `rb_replace_node` puts another node in the place of one, with its colour
(`rbReplaceNode_rep`).
-/

namespace Hurlex

open Lib.RedBlack

/-- The first of the nodes `ys`, or `NULL`. -/
def firstOr (ys : List RbPtr) : RbPtr := ys.head?.getD 0

/-- The last of the nodes `xs`, or `NULL`. -/
def lastOr (xs : List RbPtr) : RbPtr := xs.getLast?.getD 0

/-- The node at the end of a tree on side `d`. -/
def endOn (d : Side) (xs : List RbPtr) : RbPtr :=
  match d with
  | .left => firstOr xs
  | .right => lastOr xs

/-- The nodes beyond a hole on side `d`. -/
def beyond (d : Side) (p : List (Frame RbPtr)) : List RbPtr :=
  match d with
  | .left => before p
  | .right => after p

section Walk

variable {s : RbState} {d : Side} {c : Color} {a b : RbPtr} {t u T : RbTree RbPtr}
  {p q : List (Frame RbPtr)} {turns : Nat}

/-- The last node down side `d` is the end of the tree there. -/
theorem endOn_bottom (hq : ∀ f ∈ q, f.side = d) :
    endOn d (plug (RbTree.join d c b .leaf u) q).toList = b := by
  cases d with
  | left =>
    rw [toList_plug, before_left hq]
    rfl
  | right =>
    have : (plug (RbTree.join .right c b .leaf u) q).toList = (before q ++ u.toList) ++ [b] := by
      rw [toList_plug, after_right hq]
      simp [RbTree.join, RbTree.toList]
    rw [this, endOn, lastOr, List.getLast?_concat]
    rfl

theorem rbDescend_end (h : Rep s (plug t p)) (ht : t ≠ .leaf) (hn : t.height ≤ turns) :
    rbDescend d turns (treePtr t) s = some (endOn d t.toList, s) := by
  obtain ⟨c, b, u, q, rfl, hq, e⟩ := rbDescend_rep (d := d) h ht hn
  rw [e, endOn_bottom hq]

/-- `rb_first` and `rb_last`. -/
theorem rbEnd_rep (h : Rep s T) (hn : T.height ≤ turns) :
    rbEnd d turns s = some (endOn d T.toList, s) := by
  have hroot : rbRoot s = some (treePtr T, s) := by
    rw [rbRoot, h.root]
  rw [rbEnd, rb_bind hroot]
  by_cases hT : T = .leaf
  · subst hT
    cases d <;> rfl
  · rw [if_neg (Rep.ptr_ne_zero (p := []) h hT)]
    exact rbDescend_end (p := []) h hT hn

/-- Going up while the node is a child on side `d` ends at the next node on that side. -/
theorem rbAscend_rep (h : Rep s (plug t p)) (ht : t ≠ .leaf) (hn : p.length < turns) :
    rbAscend d turns (treePtr t) s = some (endOn d.flip (beyond d p), s) := by
  obtain ⟨turns, rfl⟩ : ∃ k, turns = k + 1 := ⟨turns - 1, by omega⟩
  induction p generalizing t turns with
  | nil =>
    rw [rbAscend, rb_bind (rbParent_rep h ht), parentPtr, if_neg (by simp)]
    cases d <;> rfl
  | cons f p ih =>
    obtain ⟨e, c, a, u⟩ := f
    have hf : Rep s (plug (RbTree.join e c a t u) p) := h
    obtain ⟨v, hv, hside⟩ := rbChild_side hf ht d
    rw [rbAscend, rb_bind (rbParent_rep h ht), parentPtr, if_pos hf.elem_ne_zero, rb_bind hv]
    by_cases hde : d = e
    · subst hde
      simp only [List.length_cons] at hn
      obtain ⟨turns, rfl⟩ : ∃ k, turns = k + 1 := ⟨turns - 1, by omega⟩
      have := ih hf RbTree.join_ne_leaf turns (by omega)
      rw [treePtr_join] at this
      rw [if_pos (hside.mpr rfl).symm, this]
      cases d <;> rfl
    · rw [if_neg fun heq => hde (hside.mp heq.symm)]
      obtain rfl := Side.eq_flip_of_ne hde
      cases e with
      | left => rfl
      | right =>
        have hb : before (⟨.right, c, a, u⟩ :: p) = (before p ++ u.toList) ++ [a] := by
          rw [before, List.append_assoc]
        simp [Side.flip, endOn, beyond, lastOr, hb, rb_pure]

/-- `rb_next` and `rb_prev`: the end of the child on side `d`, or the next node above on that
side. -/
theorem rbStep_rep (h : Rep s (plug (RbTree.join d c a t u) p))
    (hn : (plug (RbTree.join d c a t u) p).height ≤ turns) :
    rbStep d turns a s = some (endOn d.flip
      (match d with
        | .left => beyond d p ++ t.toList
        | .right => t.toList ++ beyond d p), s) := by
  have hh := height_plug (RbTree.join d c a t u) p
  have hjoin : t.height + 1 ≤ (RbTree.join d c a t u).height := by
    cases d <;> simp only [RbTree.join, RbTree.height] <;> omega
  have hpar := rbParent_rep h RbTree.join_ne_leaf
  rw [treePtr_join] at hpar
  have hne : parentPtr p ≠ a := by
    have hpl := (rep_plug.mp h).2.2
    have ha : a ∈ (RbTree.join d c a t u).toList := mem_toList_join.mpr (.inl rfl)
    cases p with
    | nil => exact (hpl.2 a (List.mem_append_left _ ha)).1.symm
    | cons f p =>
      exact fun e => (List.nodup_append.mp hpl.1).2.2 a ha f.elem (by simp [pathNodes]) e.symm
  rw [rbStep, rb_bind hpar, if_neg hne, rb_bind (rbChild_eq h.node)]
  by_cases ht : t = .leaf
  · subst ht
    have hdepth : p.length < turns := by omega
    have := rbAscend_rep (d := d) h RbTree.join_ne_leaf hdepth
    rw [treePtr_join] at this
    rw [if_neg (by simp), this]
    cases d <;> simp [RbTree.toList]
  · have ht' : Rep s (plug t (⟨d, c, a, u⟩ :: p)) := h
    rw [if_pos (ht'.ptr_ne_zero ht), rbDescend_end ht' ht (by omega)]
    have hl : t.toList ≠ [] := List.ne_nil_of_mem (treePtr_mem ht)
    cases d with
    | left =>
      simp only [Side.flip, endOn, lastOr, List.getLast?_append]
      obtain ⟨v, hv⟩ := Option.isSome_iff_exists.mp (List.getLast?_isSome.mpr hl)
      simp [hv]
    | right =>
      obtain ⟨v, vs, hv⟩ := List.exists_cons_of_ne_nil hl
      simp [Side.flip, endOn, firstOr, hv]

/-- **The walking calls read the order of the tree**: its ends, and for every node the ones before
and after it. -/
theorem walk_neighbours (h : Rep s T) (hn : T.height ≤ turns) :
    rbFirst turns s = some (firstOr T.toList, s) ∧ rbLast turns s = some (lastOr T.toList, s) ∧
      ∀ a xs ys, T.toList = xs ++ a :: ys →
        rbNext turns a s = some (firstOr ys, s) ∧ rbPrev turns a s = some (lastOr xs, s) := by
  refine ⟨rbEnd_rep h hn, rbEnd_rep h hn, fun a xs ys hT => ?_⟩
  obtain ⟨c, l, r, p, rfl⟩ := exists_plug_of_mem (a := a) (t := T) (by simp [hT])
  have hord : (plug (RbTree.node c l a r) p).toList =
      (before p ++ l.toList) ++ a :: (r.toList ++ after p) := by
    rw [toList_plug]
    simp [RbTree.toList]
  have hnd := h.placed.1
  rw [hord] at hT hnd
  obtain ⟨rfl, -, rfl⟩ := (List.append_cons_inj_of_notMem
    (fun hm => (List.nodup_append.mp hnd).2.2 a hm a List.mem_cons_self rfl)
    (List.nodup_cons.mp (List.nodup_append.mp hnd).2.1).1).mp hT
  exact ⟨rbStep_rep (d := .right) h hn, rbStep_rep (d := .left) h hn⟩

theorem walk_neighbours_small :
    rbFirst 2 smallStore = some (firstOr smallTree.toList, smallStore) ∧
      rbLast 2 smallStore = some (lastOr smallTree.toList, smallStore) ∧
      ∀ a xs ys, smallTree.toList = xs ++ a :: ys →
        rbNext 2 a smallStore = some (firstOr ys, smallStore) ∧
          rbPrev 2 a smallStore = some (lastOr xs, smallStore) :=
  walk_neighbours smallStore_rep (by decide)

end Walk

section Replace

variable {s : RbState} {c : Color} {a b : RbPtr} {l r : RbTree RbPtr} {p : List (Frame RbPtr)}

/-- **`rb_replace_node`** puts `b` in the place of `a`, with its colour. -/
theorem rbReplaceNode_rep (h : Rep s (plug (RbTree.node c l a r) p))
    (hb : b ∉ (plug (RbTree.node c l a r) p).toList) (hb0 : b ≠ 0) (hba : Aligned b)
    {n : RbNode} (hbn : s.node b = some n) :
    ∃ s', rbReplaceNode a b s = some ((), s') ∧ Rep s' (plug (RbTree.node c l b r) p) ∧
      Keeps (plug (RbTree.node c l b r) p).toList s s' := by
  obtain ⟨htree, hp, hpl⟩ := rep_plug.mp h
  have hP := parentPtr_aligned hpl
  obtain ⟨ha, hl, hr⟩ := htree
  have hperm : ((RbTree.node c l a r).toList ++ pathNodes p).Perm
      (a :: (l.toList ++ r.toList) ++ pathNodes p) := (perm_join (d := .left)).append_right _
  have hpl' := hpl.perm hperm.symm
  rw [((perm_plug _ p).trans hperm).mem_iff] at hb
  simp only [List.cons_append, List.mem_cons, List.mem_append, not_or] at hb
  obtain ⟨hba', ⟨hbl, hbr⟩, hbp⟩ := hb
  have hn := hpl'.1
  simp only [List.cons_append, List.nodup_cons, List.nodup_append, List.mem_append, not_or] at hn
  obtain ⟨⟨⟨hal, har⟩, hap⟩, ⟨hln, hrn, hlr⟩, hpn, hd⟩ := hn
  have hA : Aligned a := (hpl'.2 a (by simp)).2
  have hsub : ∀ w, w = a ∨ w ∈ l.toList ∨ w ∈ r.toList ∨ w ∈ pathNodes p → w ≠ 0 ∧ Aligned w :=
    fun w hw => hpl'.2 w (by
      simp only [List.cons_append, List.mem_cons, List.mem_append]
      tauto)
  -- the pointers down to the victim and up to it
  have hpl1 : Placed (a :: pathNodes p) :=
    ⟨List.nodup_cons.mpr ⟨hap, hpn⟩, fun w hw => hsub w (by
      simp only [List.mem_cons] at hw
      tauto)⟩
  have hpa : PathAt s a p := hp
  obtain ⟨s1, e1, hp1, k1⟩ := rbRelink_path hpa hpl1 .left b
  have ha1 := (k1 a hap).trans ha
  have hl1 := hl.keeps k1 fun w hw hm => hd w (.inl hw) w hm rfl
  have hr1 := hr.keeps k1 fun w hw hm => hd w (.inr hw) w hm rfl
  obtain ⟨s2, e2, hl2, k2, r2⟩ :=
    rbSetParentIf_tree hl1 hA ⟨hln, fun w hw => hsub w (by simp [hw])⟩ b
  have ha2 := (k2 a hal).trans ha1
  have hr2 := hr1.keeps k2 fun w hw hm => hlr w hm w hw rfl
  obtain ⟨s3, e3, hr3, k3, r3⟩ :=
    rbSetParentIf_tree hr2 hA ⟨hrn, fun w hw => hsub w (by simp [hw])⟩ b
  have ha3 := (k3 a har).trans ha2
  have hb3 : s3.node b = some n := by rw [k3 b hbr, k2 b hbl, k1 b hbp, hbn]
  have hright : rbChild .right a s2 = some (treePtr r, s2) := rbChild_flip_eq ha2
  have hpath : PathAt s3 b p := hp1.frame (fun w hw => by
    rw [k3 w fun hm => hd w (.inr hm) w hw rfl, k2 w fun hm => hd w (.inl hm) w hw rfl])
    (r3.trans r2)
  have hl3 := hl2.keeps k3 fun w hw hm => hlr w hw w hm rfl
  refine ⟨_, ?_, rep_plug.mpr ⟨⟨put_node_self _, hl3.put _ hbl, hr3.put _ hbr⟩, hpath.put _ hbp, ?_⟩,
    ?_⟩
  · rw [rbReplaceNode, rb_bind (rbParent_eq (d := .left) ha hP), rb_bind e1,
      rb_bind (rbChild_eq ha1), rb_bind e2, rb_bind hright, rb_bind e3, rb_bind (rbLoad_eq ha3),
      rbModify_eq _ hb3]
  · have hplaced : Placed (b :: (l.toList ++ r.toList) ++ pathNodes p) := ?_
    · exact hplaced.perm ((perm_join (d := .left)).append_right _)
    refine ⟨?_, fun w hw => ?_⟩
    · have := hpl'.1
      simp only [List.cons_append, List.nodup_cons, List.mem_append, not_or] at this ⊢
      exact ⟨⟨⟨hbl, hbr⟩, hbp⟩, this.2⟩
    · simp only [List.cons_append, List.mem_cons, List.mem_append] at hw
      obtain rfl | hw := hw
      · exact ⟨hb0, hba⟩
      · exact hsub w (by tauto)
  · intro w hw
    have hperm' : ((RbTree.node c l b r).toList ++ pathNodes p).Perm
        (b :: (l.toList ++ r.toList) ++ pathNodes p) := (perm_join (d := .left)).append_right _
    rw [((perm_plug _ p).trans hperm').mem_iff] at hw
    simp only [List.cons_append, List.mem_cons, List.mem_append, not_or] at hw
    obtain ⟨hwb, ⟨hwl, hwr⟩, hwp⟩ := hw
    rw [put_node_of_ne _ hwb, k3 w hwr, k2 w hwl, k1 w hwp]

theorem rbReplaceNode_rep_root : ∃ s', rbReplaceNode 32 48 smallStore = some ((), s') ∧
    Rep s' (plug (.node .black (.node .red .leaf 16 .leaf) 48 .leaf) []) ∧
    Keeps (plug (RbTree.node .black (.node .red .leaf 16 .leaf) 48 .leaf) []).toList smallStore s' :=
  rbReplaceNode_rep (p := []) smallStore_rep (by decide) (by decide) rfl rfl

end Replace

end Hurlex
