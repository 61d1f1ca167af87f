import Hurlex.Rbtree.RbtreeRep

/-!
# What the primitive calls do to a tree in memory

Reading and writing one node of a tree that is in memory, and from these a rotation: `rbRotate`
turns the place it is called at, and changes nothing else (`rbRotate_rep`).
-/

namespace Hurlex

open Lib.RedBlack

section Calls

variable {α β : Type} {s s' : RbState} {d : Side} {q : RbPtr} {c e : Color} {a b x y v : RbPtr}

theorem rb_bind {m : RbM α} {f : α → RbM β} {r : α} (h : m s = some (r, s')) :
    (m >>= f) s = f r s' := by
  show (m s).bind _ = _
  rw [h]
  rfl

theorem rb_pure (r : α) : (pure r : RbM α) s = some (r, s) := rfl

@[simp] theorem put_node_self (n : RbNode) : (s.put a n).node a = some n := Function.update_self ..

theorem put_node_of_ne (n : RbNode) (h : b ≠ a) : (s.put a n).node b = s.node b :=
  Function.update_of_ne h ..

@[simp] theorem put_root (n : RbNode) : (s.put a n).root = s.root := rfl

@[simp] theorem child_rbCell : (rbCell d q c x y).child d = x := by cases d <;> rfl

@[simp] theorem child_flip_rbCell : (rbCell d q c x y).child d.flip = y := by cases d <;> rfl

theorem parentColor_rbCell : (rbCell d q c x y).rbParentColor = rbPack q c := by cases d <;> rfl

theorem rbLoad_eq {n : RbNode} (h : s.node a = some n) : rbLoad a s = some (n, s) := by
  rw [rbLoad, h]
  rfl

theorem rbModify_eq {n : RbNode} (g : RbNode → RbNode) (h : s.node a = some n) :
    rbModify a g s = some ((), s.put a (g n)) := by
  rw [rbModify, h]
  rfl

variable (h : s.node a = some (rbCell d q c x y))
include h

theorem rbChild_eq : rbChild d a s = some (x, s) := by
  rw [rbChild, rb_bind (rbLoad_eq h), child_rbCell]
  rfl

theorem rbChild_flip_eq : rbChild d.flip a s = some (y, s) := by
  rw [rbChild, rb_bind (rbLoad_eq h), child_flip_rbCell]
  rfl

theorem rbSetChild_eq (v : RbPtr) :
    rbSetChild d a v s = some ((), s.put a (rbCell d q c v y)) := by
  rw [rbSetChild, rbModify_eq _ h]
  cases d <;> rfl

theorem rbSetChild_flip_eq (v : RbPtr) :
    rbSetChild d.flip a v s = some ((), s.put a (rbCell d q c x v)) := by
  rw [rbSetChild, rbModify_eq _ h]
  cases d <;> rfl

variable (hq : Aligned q)
include hq

theorem rbParent_eq : rbParent a s = some (q, s) := by
  rw [rbParent, rb_bind (rbLoad_eq h), parentColor_rbCell, rbPack_parent hq]
  rfl

theorem rbColor_eq : rbColor a s = some (rbColorBit c, s) := by
  rw [rbColor, rb_bind (rbLoad_eq h), parentColor_rbCell, rbPack_color hq]
  rfl

theorem rbIsRed_eq : rbIsRed a s = some (decide (c = .red), s) := by
  rw [rbIsRed, rb_bind (rbColor_eq h hq)]
  cases c <;> rfl

theorem rbIsBlack_eq : rbIsBlack a s = some (decide (c = .black), s) := by
  rw [rbIsBlack, rb_bind (rbColor_eq h hq)]
  cases c <;> rfl

theorem rbSetParent_eq (v : RbPtr) :
    rbSetParent a v s = some ((), s.put a (rbCell d v c x y)) := by
  rw [rbSetParent, rbModify_eq _ h, parentColor_rbCell, rbPack_setParent hq]
  cases d <;> rfl

theorem rbSetColor_eq (e : Color) :
    rbSetColor a (rbColorBit e) s = some ((), s.put a (rbCell d q e x y)) := by
  rw [rbSetColor, rbModify_eq _ h, parentColor_rbCell, rbPack_setColor hq]
  cases d <;> rfl

theorem rbSetRed_eq : rbSetRed a s = some ((), s.put a (rbCell d q .red x y)) := by
  rw [rbSetRed, rbModify_eq _ h, parentColor_rbCell, rbPack_setRed hq]
  cases d <;> rfl

omit hq in
theorem rbSetBlack_eq : rbSetBlack a s = some ((), s.put a (rbCell d q .black x y)) := by
  rw [rbSetBlack, rbModify_eq _ h, parentColor_rbCell, rbPack_setBlack]
  cases d <;> rfl

end Calls

section Places

variable {s s' : RbState} {d e : Side} {q : RbPtr} {c c' : Color} {a b old : RbPtr}
  {t u x y z : RbTree RbPtr} {p : List (Frame RbPtr)} {as bs : List RbPtr}

theorem Keeps.refl (as : List RbPtr) (s : RbState) : Keeps as s s := fun _ _ => rfl

theorem Keeps.trans {s'' : RbState} (h : Keeps as s s') (h' : Keeps as s' s'') : Keeps as s s'' :=
  fun a ha => (h' a ha).trans (h a ha)

theorem Reshapes.refl {T : RbTree RbPtr} (h : Rep s T) : Reshapes s T s T :=
  ⟨h, rfl, Keeps.refl _ _⟩

theorem Reshapes.trans {s'' : RbState} {T T' T'' : RbTree RbPtr} (h : Reshapes s T s' T')
    (h' : Reshapes s' T' s'' T'') : Reshapes s T s'' T'' :=
  ⟨h'.rep, h'.order.trans h.order, h.keeps.trans (h.order ▸ h'.keeps)⟩

theorem Keeps.mono (h : Keeps as s s') (hsub : as ⊆ bs) : Keeps bs s s' :=
  fun a ha => h a fun hm => ha (hsub hm)

theorem keeps_put (n : RbNode) (ha : a ∈ as) : Keeps as s (s.put a n) :=
  fun _ hb => put_node_of_ne n fun e => hb (e ▸ ha)

theorem TreeAt.put (h : TreeAt s q t) (n : RbNode) (ha : a ∉ t.toList) : TreeAt (s.put a n) q t :=
  h.frame fun _ hb => put_node_of_ne n fun e => ha (e ▸ hb)

theorem PathAt.put {hole : RbPtr} (h : PathAt s hole p) (n : RbNode) (ha : a ∉ pathNodes p) :
    PathAt (s.put a n) hole p :=
  h.frame (fun _ hb => put_node_of_ne n fun e => ha (e ▸ hb)) rfl

theorem treePtr_mem (ht : t ≠ .leaf) : treePtr t ∈ t.toList := by
  cases t with
  | leaf => exact absurd rfl ht
  | node c l a r => simp [treePtr, RbTree.toList]

theorem parentPtr_aligned (h : Placed (as ++ pathNodes p)) : Aligned (parentPtr p) := by
  cases p with
  | nil => exact aligned_zero
  | cons f p => exact (h.2 f.elem (by simp [pathNodes])).2

/-- `rb_set_parent` on the root of a tree. -/
theorem rbSetParent_tree (h : TreeAt s q t) (hq : Aligned q) (ht : t ≠ .leaf)
    (hn : t.toList.Nodup) (v : RbPtr) :
    ∃ s', rbSetParent (treePtr t) v s = some ((), s') ∧ TreeAt s' v t ∧ Keeps t.toList s s' ∧
      s'.root = s.root := by
  cases t with
  | leaf => exact absurd rfl ht
  | node c l a r =>
    obtain ⟨ha, hl, hr⟩ := h
    simp only [RbTree.toList, List.nodup_append, List.nodup_cons] at hn
    refine ⟨_, rbSetParent_eq ha hq v, ⟨put_node_self _, hl.put _ ?_, hr.put _ hn.2.1.1⟩,
      keeps_put _ (by simp [RbTree.toList]), rfl⟩
    exact fun hm => hn.2.2 a hm a List.mem_cons_self rfl

theorem rbSetParentIf_tree (h : TreeAt s q t) (hq : Aligned q) (hpl : Placed t.toList) (v : RbPtr) :
    ∃ s', rbSetParentIf (treePtr t) v s = some ((), s') ∧ TreeAt s' v t ∧ Keeps t.toList s s' ∧
      s'.root = s.root := by
  unfold rbSetParentIf
  by_cases ht : t = .leaf
  · subst ht
    exact ⟨s, rfl, trivial, Keeps.refl _ _, rfl⟩
  · rw [if_pos (hpl.2 _ (treePtr_mem ht)).1]
    exact rbSetParent_tree h hq ht hpl.1 v

/-- **The pointer down to a place** now goes to `new`. -/
theorem rbRelink_path (h : PathAt s old p) (hpl : Placed (old :: pathNodes p)) (e : Side)
    (new : RbPtr) :
    ∃ s', rbRelink e (parentPtr p) old new s = some ((), s') ∧ PathAt s' new p ∧
      Keeps (pathNodes p) s s' := by
  unfold rbRelink
  cases p with
  | nil => exact ⟨{ s with root := new }, rfl, rfl, Keeps.refl _ _⟩
  | cons f p =>
    obtain ⟨hf, hs, hp⟩ := h
    have hnd := hpl.1
    simp only [pathNodes, List.nodup_cons, List.nodup_append, List.mem_cons, List.mem_append,
      not_or] at hnd
    have hf0 : f.elem ≠ 0 := (hpl.2 f.elem (by simp [pathNodes])).1
    have hold0 : old ≠ 0 := (hpl.2 old (by simp)).1
    rw [parentPtr, if_pos hf0]
    have hwritten : PathAt (s.put f.elem
        (rbCell f.side (parentPtr p) f.color new (treePtr f.sibling))) new (f :: p) :=
      ⟨put_node_self _, hs.put _ hnd.2.1.1, hp.put _ hnd.2.1.2⟩
    by_cases he : f.side = e
    · subst he
      rw [rb_bind (rbChild_eq hf), if_pos rfl]
      exact ⟨_, rbSetChild_eq hf new, hwritten, keeps_put _ (by simp [pathNodes])⟩
    · have he : e = f.side.flip := Side.eq_flip_of_ne (Ne.symm he)
      subst he
      have hne : treePtr f.sibling ≠ old := by
        by_cases hl : f.sibling = .leaf
        · rw [hl]
          exact hold0.symm
        · exact fun e => hnd.1.2.1 (e ▸ treePtr_mem hl)
      rw [rb_bind (rbChild_flip_eq hf), if_neg hne, Side.flip_flip]
      exact ⟨_, rbSetChild_eq hf new, hwritten, keeps_put _ (by simp [pathNodes])⟩

theorem TreeAt.keeps (h : TreeAt s q t) (hk : Keeps as s s') (hd : ∀ a ∈ t.toList, a ∉ as) :
    TreeAt s' q t := h.frame fun a ha => hk a (hd a ha)

/-- **A rotation** turns the place it is called at. -/
theorem rbRotate_rep
    (h : Rep s (plug (RbTree.join d c a x (RbTree.join d c' b y z)) p)) :
    ∃ s', rbRotate d a s = some ((), s') ∧
      Reshapes s (plug (RbTree.join d c a x (RbTree.join d c' b y z)) p)
        s' (plug (RbTree.join d c' b (RbTree.join d c a x y) z) p) := by
  obtain ⟨ht, hp, hpl⟩ := rep_plug.mp h
  obtain ⟨ha, hx, ht⟩ := treeAt_join.mp ht
  obtain ⟨hb, hy, hz⟩ := treeAt_join.mp ht
  rw [treePtr_join] at ha hp
  have hperm : ((RbTree.join d c a x (RbTree.join d c' b y z)).toList ++ pathNodes p).Perm
      (a :: (x.toList ++ b :: (y.toList ++ z.toList)) ++ pathNodes p) :=
    (perm_join.trans ((perm_join.append_left _).cons _)).append_right _
  have hpl' := hpl.perm hperm.symm
  have hq : Aligned (parentPtr p) := parentPtr_aligned hpl
  have hn := hpl'.1
  simp only [List.nodup_append, List.nodup_cons, List.cons_append, List.mem_append, List.mem_cons,
    not_or, List.append_assoc] at hn
  obtain ⟨⟨hax, hab, hay, haz, hap⟩, -, ⟨⟨hby, hbz, hbp⟩, hyn, ⟨-, -, hzp⟩, hyd⟩, hxd⟩ := hn
  have hxb : b ∉ x.toList := fun hm => hxd b hm b (.inl rfl) rfl
  have hal : Aligned a := (hpl'.2 a (by simp)).2
  have hbl : Aligned b := (hpl'.2 b (by simp)).2
  have hyp : Placed y.toList := ⟨hyn, fun w hw => hpl'.2 w (by simp [hw])⟩
  unfold rbRotate
  rw [rb_bind (rbChild_flip_eq ha), rb_bind (rbParent_eq ha hq), rb_bind (rbChild_eq hb),
    rb_bind (rbSetChild_flip_eq ha (treePtr y))]
  -- the inner tree goes over
  have hb1 : (s.put a (rbCell d (parentPtr p) c (treePtr x) (treePtr y))).node b = _ :=
    (put_node_of_ne _ (Ne.symm hab)).trans hb
  obtain ⟨s2, e2, hy2, k2, r2⟩ := rbSetParentIf_tree
    (hy.put (rbCell d (parentPtr p) c (treePtr x) (treePtr y)) hay) hbl hyp a
  have ha2 : s2.node a = some _ := (k2 a hay).trans (put_node_self _)
  have hb2 := (k2 b hby).trans hb1
  have hx2 : TreeAt s2 a x := (hx.put _ hax).keeps k2 fun w hw hm => hxd w hw w (by simp [hm]) rfl
  have hz2 : TreeAt s2 b z := (hz.put _ haz).keeps k2 fun w hw hm => hyd w hm w (.inl hw) rfl
  have hp2 : PathAt s2 a p :=
    (hp.put _ hap).frame (fun w hw => k2 w fun hm => hyd w hm w (.inr hw) rfl) r2
  rw [rb_bind (rbChild_eq hb1), rb_bind e2, rb_bind (rbSetChild_eq hb2 a),
    rb_bind (rbSetParent_eq (put_node_self _) hal (parentPtr p))]
  -- the pointer from above
  have hpa : Placed (a :: pathNodes p) := by
    refine ⟨List.nodup_cons.mpr ⟨hap, (List.nodup_append.mp hpl.1).2.1⟩, fun w hw => ?_⟩
    refine hpl'.2 w ?_
    simp only [List.mem_append, List.mem_cons] at hw ⊢
    tauto
  obtain ⟨s5, e5, hp5, k5⟩ := rbRelink_path
    ((hp2.put (rbCell d a c' a (treePtr z)) hbp).put (rbCell d (parentPtr p) c' a (treePtr z)) hbp)
    hpa d b
  have ha5 : s5.node a = some _ :=
    (k5 a hap).trans ((put_node_of_ne _ hab).trans ((put_node_of_ne _ hab).trans ha2))
  have hb5 : s5.node b = some _ := (k5 b hbp).trans (put_node_self _)
  rw [rb_bind e5]
  refine ⟨_, rbSetParent_eq ha5 hq b, ⟨rep_plug.mpr ⟨treeAt_join.mpr ⟨?_, treeAt_join.mpr
    ⟨put_node_self _, ?_, ?_⟩, ?_⟩, ?_, ?_⟩, toList_plug_congr (RbTree.toList_rotate ..) p, ?_⟩⟩
  · rw [treePtr_join]
    exact (put_node_of_ne _ (Ne.symm hab)).trans hb5
  · refine TreeAt.put (TreeAt.keeps ((hx2.put _ hxb).put _ hxb) k5 fun w hw hm => ?_) _ hax
    exact hxd w hw w (by simp [hm]) rfl
  · refine TreeAt.put (TreeAt.keeps ((hy2.put _ hby).put _ hby) k5 fun w hw hm => ?_) _ hay
    exact hyd w hw w (.inr hm) rfl
  · refine TreeAt.put (TreeAt.keeps ((hz2.put _ hbz).put _ hbz) k5 fun w hw hm => ?_) _ haz
    exact hzp w hw w hm rfl
  · rw [treePtr_join]
    exact hp5.put _ hap
  · rwa [RbTree.toList_rotate]
  · intro w hw
    rw [((perm_plug _ p).trans hperm).mem_iff] at hw
    simp only [List.mem_append, List.mem_cons, not_or] at hw
    obtain ⟨⟨hwa, -, hwb, hwy, -⟩, hwp⟩ := hw
    rw [put_node_of_ne _ hwa, k5 w hwp, put_node_of_ne _ hwb, put_node_of_ne _ hwb, k2 w hwy,
      put_node_of_ne _ hwa]

/-! ### Reading and colouring one place -/

/-- What is in memory at a node of the tree. -/
theorem Rep.node (h : Rep s (plug (RbTree.join d c a t u) p)) :
    s.node a = some (rbCell d (parentPtr p) c (treePtr t) (treePtr u)) :=
  (treeAt_join.mp (rep_plug.mp h).1).1

theorem Rep.aligned (h : Rep s (plug t p)) : Aligned (parentPtr p) :=
  parentPtr_aligned (rep_plug.mp h).2.2

theorem Rep.ptr_ne_zero (h : Rep s (plug t p)) (ht : t ≠ .leaf) : treePtr t ≠ 0 :=
  ((rep_plug.mp h).2.2.2 _ (List.mem_append_left _ (treePtr_mem ht))).1

theorem Rep.elem_ne_zero (h : Rep s (plug (RbTree.join d c a t u) p)) : a ≠ 0 := by
  have := h.ptr_ne_zero (by cases d <;> simp [RbTree.join])
  rwa [treePtr_join] at this

/-- The two children of a node are not one node. -/
theorem Rep.child_ne (h : Rep s (plug (RbTree.join d c a t u) p)) (ht : t ≠ .leaf) :
    treePtr u ≠ treePtr t := by
  have hpl := (rep_plug.mp h).2.2.perm (perm_join.symm.append_right _)
  have hn := hpl.1
  simp only [List.cons_append, List.nodup_cons, List.nodup_append] at hn
  by_cases hu : u = .leaf
  · rw [hu]
    exact (hpl.2 _ (by simp [treePtr_mem ht])).1.symm
  · exact fun e => hn.2.1.2.2 _ (treePtr_mem ht) _ (treePtr_mem hu) e.symm

/-- `rb_parent` at a place. -/
theorem rbParent_rep (h : Rep s (plug t p)) (ht : t ≠ .leaf) :
    rbParent (treePtr t) s = some (parentPtr p, s) := by
  cases t with
  | leaf => exact absurd rfl ht
  | node c l a r =>
    have h' : Rep s (plug (RbTree.join .left c a l r) p) := h
    exact rbParent_eq h'.node h.aligned

/-- Which child of its parent a place is. -/
theorem rbChild_side (h : Rep s (plug (RbTree.join d c a t u) p)) (ht : t ≠ .leaf) (e : Side) :
    ∃ v, rbChild e a s = some (v, s) ∧ (v = treePtr t ↔ e = d) := by
  by_cases he : e = d
  · subst he
    exact ⟨_, rbChild_eq h.node, by simp⟩
  · obtain rfl := Side.eq_flip_of_ne he
    exact ⟨_, rbChild_flip_eq h.node, iff_of_false (h.child_ne ht) he⟩

/-- `p && rb_is_red(p)` at a place. -/
theorem rbNonNullRed_rep (h : Rep s (plug t p)) :
    rbNonNullRed (treePtr t) s = some (decide (t.color = .red), s) := by
  unfold rbNonNullRed
  cases t with
  | leaf => rfl
  | node c l a r =>
    have h' : Rep s (plug (RbTree.join .left c a l r) p) := h
    rw [treePtr, if_pos h'.elem_ne_zero, rbIsRed_eq h'.node h.aligned]
    rfl

/-- `!p || rb_is_black(p)` at a place. -/
theorem rbNullOrBlack_rep (h : Rep s (plug t p)) :
    rbNullOrBlack (treePtr t) s = some (decide (t.color = .black), s) := by
  unfold rbNullOrBlack
  cases t with
  | leaf => rfl
  | node c l a r =>
    have h' : Rep s (plug (RbTree.join .left c a l r) p) := h
    rw [treePtr, if_neg h'.elem_ne_zero, rbIsBlack_eq h'.node h.aligned]
    rfl

/-- A node written with another colour. -/
theorem Rep.put_color (h : Rep s (plug (RbTree.join d c a t u) p)) (e : Color) :
    Reshapes s (plug (RbTree.join d c a t u) p)
      (s.put a (rbCell d (parentPtr p) e (treePtr t) (treePtr u)))
      (plug (RbTree.join d e a t u) p) := by
  obtain ⟨ht, hp, hpl⟩ := rep_plug.mp h
  obtain ⟨ha, ht, hu⟩ := treeAt_join.mp ht
  rw [treePtr_join] at hp
  have hpl' : Placed (a :: (t.toList ++ u.toList) ++ pathNodes p) :=
    hpl.perm (perm_join.symm.append_right _)
  have hn := hpl'.1
  simp only [List.cons_append, List.nodup_cons, List.mem_append, not_or] at hn
  obtain ⟨⟨⟨hat, hau⟩, hap⟩, -⟩ := hn
  refine ⟨rep_plug.mpr ⟨treeAt_join.mpr ⟨put_node_self _, ht.put _ hat, hu.put _ hau⟩, ?_, ?_⟩,
    toList_plug_congr ?_ p, keeps_put _ ?_⟩
  · rw [treePtr_join]
    exact hp.put _ hap
  · exact hpl'.perm (perm_join.append_right _)
  · simp only [RbTree.toList_join]
  · rw [(perm_plug _ p).mem_iff]
    exact List.mem_append_left _ (mem_toList_join.mpr (.inl rfl))

theorem rbSetBlack_rep (h : Rep s (plug (RbTree.join d c a t u) p)) :
    ∃ s', rbSetBlack a s = some ((), s') ∧
      Reshapes s (plug (RbTree.join d c a t u) p) s' (plug (RbTree.join d .black a t u) p) :=
  ⟨_, rbSetBlack_eq h.node, h.put_color .black⟩

theorem rbSetRed_rep (h : Rep s (plug (RbTree.join d c a t u) p)) :
    ∃ s', rbSetRed a s = some ((), s') ∧
      Reshapes s (plug (RbTree.join d c a t u) p) s' (plug (RbTree.join d .red a t u) p) :=
  ⟨_, rbSetRed_eq h.node h.aligned, h.put_color .red⟩

theorem rbSetColor_rep (h : Rep s (plug (RbTree.join d c a t u) p)) (e : Color) :
    ∃ s', rbSetColor a (rbColorBit e) s = some ((), s') ∧
      Reshapes s (plug (RbTree.join d c a t u) p) s' (plug (RbTree.join d e a t u) p) :=
  ⟨_, rbSetColor_eq h.node h.aligned e, h.put_color e⟩

/-- `rb_set_black(root->rb_node)`. -/
theorem rbSetBlack_root (h : Rep s t) (ht : t ≠ .leaf) :
    ∃ s', (rbRoot >>= rbSetBlack) s = some ((), s') ∧ Reshapes s t s' (t.setColor .black) := by
  cases t with
  | leaf => exact absurd rfl ht
  | node c l a r =>
    have h' : Rep s (plug (RbTree.join .left c a l r) []) := h
    obtain ⟨s', e, hr⟩ := rbSetBlack_rep h'
    refine ⟨s', ?_, hr⟩
    have hroot : rbRoot s = some (a, s) := by
      rw [rbRoot, h.root]
      rfl
    rw [rb_bind hroot, e]

/-- The tree seen from the other child of a node. -/
theorem plug_join_flip (d : Side) (c : Color) (a : RbPtr) (t u : RbTree RbPtr)
    (p : List (Frame RbPtr)) :
    plug (RbTree.join d c a t u) p = plug u (⟨d.flip, c, a, t⟩ :: p) := by
  rw [plug_cons, Frame.fill, join_flip]

end Places

end Hurlex
