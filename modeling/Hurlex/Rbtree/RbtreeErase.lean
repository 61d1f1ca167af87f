import Hurlex.Rbtree.RbtreeEraseColor

/-!
# `rb_erase`

A node with at most one child is taken out of its place (`rbEraseSplice_rep`). A node with two is
replaced by its successor, the first node of its right subtree, which is taken out of its own place
(`rbEraseSuccessor_rep`). Where the node that left its place was black, `__rb_erase_color` mends the
tree there. The words of the erased node itself are not written.
-/

namespace Hurlex

open Lib.RedBlack

section Down

variable {s : RbState} {d : Side} {t : RbTree RbPtr} {p : List (Frame RbPtr)}

/-- The loop down one side stops at the last node there. -/
theorem rbDescend_rep (h : Rep s (plug t p)) (ht : t ≠ .leaf) {turns : Nat}
    (hn : t.height ≤ turns) :
    ∃ c b u q, t = plug (RbTree.join d c b .leaf u) q ∧ (∀ f ∈ q, f.side = d) ∧
      rbDescend d turns (treePtr t) s = some (b, s) := by
  induction turns generalizing t p with
  | zero =>
    obtain ⟨c, a, t1, u, rfl⟩ := RbTree.exists_join_of_ne ht d
    cases d <;> simp [RbTree.join, RbTree.height] at hn
  | succ turns ih =>
    obtain ⟨c, a, t1, u, rfl⟩ := RbTree.exists_join_of_ne ht d
    rw [treePtr_join, rbDescend, rb_bind (rbChild_eq h.node)]
    by_cases ht1 : t1 = .leaf
    · subst ht1
      exact ⟨c, a, u, [], rfl, by simp, rfl⟩
    · have h1 : Rep s (plug t1 (⟨d, c, a, u⟩ :: p)) := h
      have hh : t1.height ≤ turns := by
        cases d <;> simp [RbTree.join, RbTree.height] at hn <;> omega
      obtain ⟨c', b, v, q, rfl, hq, e⟩ := ih h1 ht1 hh
      refine ⟨c', b, v, q ++ [⟨d, c, a, u⟩], ?_, ?_, ?_⟩
      · rw [plug_append]
        rfl
      · intro f hf
        simp only [List.mem_append, List.mem_singleton] at hf
        obtain hf | rfl := hf
        · exact hq f hf
        · rfl
      · rw [if_pos (h1.ptr_ne_zero ht1), e]

end Down

section Splice

variable {s : RbState} {d : Side} {c : Color} {a : RbPtr} {t : RbTree RbPtr}
  {p : List (Frame RbPtr)}

theorem perm_join_leaf : (RbTree.join d c a t .leaf).toList.Perm (a :: t.toList) := by
  have := perm_join (d := d) (c := c) (a := a) (t := t) (u := .leaf)
  rwa [RbTree.toList, List.append_nil] at this

/-- **A node with at most one child** is taken out of its place. -/
theorem rbEraseSplice_rep (h : Rep s (plug (RbTree.join d c a t .leaf) p)) :
    ∃ s', rbEraseSplice a (treePtr t) s = some ((treePtr t, parentPtr p, rbColorBit c), s') ∧
      Rep s' (plug t p) ∧ Keeps (plug t p).toList s s' := by
  obtain ⟨ht, hp, hpl⟩ := rep_plug.mp h
  have hq := parentPtr_aligned hpl
  have hpl' : Placed (a :: (t.toList ++ pathNodes p)) :=
    hpl.perm (perm_join_leaf.append_right _).symm
  obtain ⟨ha, ht, -⟩ := treeAt_join.mp ht
  rw [treePtr_join] at hp
  have hn := hpl'.1
  simp only [List.nodup_cons, List.mem_append, not_or, List.nodup_append] at hn
  obtain ⟨⟨hat, hap⟩, htn, hpn, htp⟩ := hn
  have hal : Aligned a := (hpl'.2 a List.mem_cons_self).2
  have htpl : Placed t.toList := ⟨htn, fun w hw => hpl'.2 w (by simp [hw])⟩
  have hppl : Placed (a :: pathNodes p) :=
    ⟨List.nodup_cons.mpr ⟨hap, hpn⟩, fun w hw => hpl'.2 w (by
      simp only [List.mem_cons] at hw
      obtain rfl | hw := hw <;> simp [*])⟩
  obtain ⟨s1, e1, ht1, k1, r1⟩ := rbSetParentIf_tree ht hal htpl (parentPtr p)
  have hp1 : PathAt s1 a p := hp.frame (fun w hw => k1 w fun hm => htp w hm w hw rfl) r1
  obtain ⟨s2, e2, hp2, k2⟩ := rbRelink_path hp1 hppl .left (treePtr t)
  refine ⟨s2, ?_, rep_plug.mpr ⟨ht1.keeps k2 fun w hw hm => htp w hw w hm rfl, hp2, ?_⟩, ?_⟩
  · rw [rbEraseSplice, rb_bind (rbParent_eq ha hq), rb_bind (rbColor_eq ha hq), rb_bind e1,
      rb_bind e2]
    rfl
  · exact ⟨(List.nodup_cons.mp hpl'.1).2, fun w hw => hpl'.2 w (List.mem_cons_of_mem _ hw)⟩
  · intro w hw
    rw [(perm_plug t p).mem_iff, List.mem_append, not_or] at hw
    rw [k2 w hw.2, k1 w hw.1]

end Splice

/-! ## The successor -/

/-- The node over a hole in a tree under `a`. -/
def parentIn (a : RbPtr) : List (Frame RbPtr) → RbPtr
  | [] => a
  | f :: _ => f.elem

/-- The frames over a hole that holds the pointer `hole`, in a tree under `a`, are in memory. -/
def Around (s : RbState) (a : RbPtr) : RbPtr → List (Frame RbPtr) → Prop
  | _, [] => True
  | hole, f :: q =>
    s.node f.elem = some (rbCell f.side (parentIn a q) f.color hole (treePtr f.sibling)) ∧
      TreeAt s f.elem f.sibling ∧ Around s a f.elem q

section Successor

variable {s s' : RbState} {a b hole : RbPtr} {t u : RbTree RbPtr} {q : List (Frame RbPtr)}

theorem treeAt_plug : TreeAt s a (plug t q) ↔
    TreeAt s (parentIn a q) t ∧ Around s a (treePtr t) q := by
  induction q generalizing t with
  | nil => exact (and_iff_left trivial).symm
  | cons f q ih =>
    rw [plug_cons, ih, Frame.fill, treeAt_join, treePtr_join]
    show _ ↔ TreeAt s f.elem t ∧ _ ∧ _ ∧ _
    tauto

theorem Around.frame (h : Around s a hole q) (hag : ∀ b ∈ pathNodes q, s'.node b = s.node b) :
    Around s' a hole q := by
  induction q generalizing hole with
  | nil => trivial
  | cons f q ih =>
    obtain ⟨hf, hs, hq⟩ := h
    refine ⟨?_, hs.frame fun b hb => hag b ?_, ih hq fun b hb => hag b ?_⟩
    · rw [hag _ (by simp [pathNodes]), hf]
    · simp [pathNodes, hb]
    · simp [pathNodes, hb]

theorem Around.keeps {as : List RbPtr} (h : Around s a hole q) (hk : Keeps as s s')
    (hd : ∀ b ∈ pathNodes q, b ∉ as) : Around s' a hole q := h.frame fun b hb => hk b (hd b hb)

/-- The successor takes the parent, the colour and the left subtree of the node it replaces. -/
theorem rbEraseAdopt_rep {l : RbTree RbPtr} {P x y y' z : RbPtr} {c cs : Color}
    (ha : s.node a = some (rbCell .left P c (treePtr l) y'))
    (hb : s.node b = some (rbCell .left x cs z y)) (hl : TreeAt s a l) (hne : l ≠ .leaf)
    (hal : Aligned a) (hn : (a :: b :: l.toList).Nodup) :
    ∃ s', rbEraseAdopt a b s = some ((), s') ∧
      s'.node b = some (rbCell .left P c (treePtr l) y) ∧ TreeAt s' b l ∧
      Keeps (b :: l.toList) s s' ∧ s'.root = s.root := by
  simp only [List.nodup_cons, List.mem_cons, not_or] at hn
  obtain ⟨⟨hab, haln⟩, hbl, hln⟩ := hn
  have ha1 : (s.put b (rbCell .left P c z y)).node a = _ := (put_node_of_ne _ hab).trans ha
  have ha2 : ((s.put b (rbCell .left P c z y)).put b (rbCell .left P c (treePtr l) y)).node a = _ :=
    (put_node_of_ne _ hab).trans ha1
  obtain ⟨s', e, hl', hk, hr⟩ := rbSetParent_tree
    ((hl.put (rbCell .left P c z y) hbl).put (rbCell .left P c (treePtr l) y) hbl) hal hne hln b
  refine ⟨s', ?_, (hk b hbl).trans (put_node_self _), hl', ?_, hr⟩
  · rw [rbEraseAdopt, rb_bind (rbLoad_eq ha), rb_bind (rbModify_eq _ hb)]
    show (rbChild .left a >>= _) (s.put b (rbCell .left P c z y)) = _
    rw [rb_bind (rbChild_eq ha1), rb_bind (rbSetChild_eq (put_node_self _) _),
      rb_bind (rbChild_eq ha2), e]
  · intro w hw
    simp only [List.mem_cons, not_or] at hw
    rw [hk w hw.2, put_node_of_ne _ hw.1, put_node_of_ne _ hw.1]

/-- Under a frame it does not matter to the root what is in the hole. -/
theorem treePtr_plug_cons (f : Frame RbPtr) (q : List (Frame RbPtr)) (t u : RbTree RbPtr) :
    treePtr (plug t (f :: q)) = treePtr (plug u (f :: q)) := by
  induction q generalizing f t u with
  | nil => simp only [plug_cons, plug_nil, Frame.fill, treePtr_join]
  | cons g q ih => exact ih g _ _

/-- The successor leaves its place under `f` to its child `t`, and the subtree it was in goes under
it. -/
theorem rbEraseDetach_rep {f : Frame RbPtr} {P lp rp : RbPtr} {c cs : Color}
    (ha : s.node a = some (rbCell .left P c lp rp)) (hrp : rp = treePtr (plug t (f :: q)))
    (hb : s.node b = some (rbCell .left f.elem cs 0 (treePtr t))) (ht : TreeAt s b t)
    (har : Around s a b (f :: q)) (hf : f.side = .left)
    (hpl : Placed (a :: b :: (t.toList ++ pathNodes (f :: q)))) :
    ∃ s', rbEraseDetach a b (treePtr t) f.elem s = some ((), s') ∧
      s'.node b = some (rbCell .left f.elem cs 0 rp) ∧ TreeAt s' b (plug t (f :: q)) ∧
      Keeps (b :: (t.toList ++ pathNodes (f :: q))) s s' ∧ s'.root = s.root := by
  obtain ⟨hfc, hfs, hq⟩ := har
  obtain ⟨d, fc, fe, fs⟩ := f
  obtain rfl : d = .left := hf
  have hn := hpl.1
  simp only [pathNodes, List.nodup_cons, List.nodup_append, List.mem_cons, List.mem_append,
    not_or] at hn
  obtain ⟨⟨hab, hat, haf, has, haq⟩, ⟨hbt, hbf, hbs, hbq⟩, htn,
    ⟨⟨hfes, hfeq⟩, hsn, hqn, hsq⟩, htd⟩ := hn
  have hal : Aligned a := (hpl.2 a (by simp)).2
  have hbl : Aligned b := (hpl.2 b (by simp)).2
  have htp : Placed t.toList := ⟨htn, fun w hw => hpl.2 w (by simp [hw])⟩
  have hft : fe ∉ t.toList := fun hm => htd _ hm _ (.inl rfl) rfl
  have hbp : b ∉ (plug t (⟨.left, fc, fe, fs⟩ :: q)).toList := by
    rw [(perm_plug t _).mem_iff]
    simp [pathNodes, hbt, hbf, hbs, hbq]
  have hap : a ∉ (plug t (⟨.left, fc, fe, fs⟩ :: q)).toList := by
    rw [(perm_plug t _).mem_iff]
    simp [pathNodes, hat, haf, has, haq]
  have hpn : (plug t (⟨.left, fc, fe, fs⟩ :: q)).toList.Nodup :=
    (perm_plug t _).nodup_iff.mpr (List.nodup_cons.mp (List.nodup_cons.mp hpl.1).2).2
  have hne : plug t (⟨.left, fc, fe, fs⟩ :: q) ≠ .leaf := plug_ne_leaf RbTree.join_ne_leaf q
  -- the child goes under the frame
  obtain ⟨s1, e1, ht1, k1, r1⟩ := rbSetParentIf_tree ht hbl htp fe
  have hfc1 : s1.node fe = some (rbCell .left (parentIn a q) fc b (treePtr fs)) :=
    (k1 fe hft).trans hfc
  have ha1 := (k1 a hat).trans ha
  have hb1 := (k1 b hbt).trans hb
  have hfs1 := hfs.keeps k1 fun w hw hm => htd w hm w (.inr (.inl hw)) rfl
  have hq1 := hq.keeps k1 fun w hw hm => htd w hm w (.inr (.inr hw)) rfl
  have htree : TreeAt (s1.put fe (rbCell .left (parentIn a q) fc (treePtr t) (treePtr fs))) a
      (plug t (⟨.left, fc, fe, fs⟩ :: q)) := by
    refine treeAt_plug.mpr ⟨ht1.put _ hft, put_node_self _, hfs1.put _ hfes, hq1.frame fun w hw => ?_⟩
    exact put_node_of_ne _ fun e => hfeq (e ▸ hw)
  have ha2 := (put_node_of_ne (rbCell .left (parentIn a q) fc (treePtr t) (treePtr fs)) haf).trans ha1
  have hb2 := (put_node_of_ne (rbCell .left (parentIn a q) fc (treePtr t) (treePtr fs)) hbf).trans hb1
  -- the subtree goes under the successor
  have ha3 := (put_node_of_ne (rbCell .left fe cs 0 rp) hab).trans ha2
  obtain ⟨s4, e4, ht4, k4, r4⟩ :=
    rbSetParent_tree (htree.put (rbCell .left fe cs 0 rp) hbp) hal hne hpn b
  rw [← hrp] at e4
  refine ⟨s4, ?_, (k4 b hbp).trans (put_node_self _), ht4, ?_, r4.trans r1⟩
  · have hr2 := rbChild_flip_eq ha2
    have hr3 := rbChild_flip_eq ha3
    have hset := rbSetChild_flip_eq hb2 rp
    rw [rbEraseDetach, rb_bind e1, rb_bind (rbSetChild_eq hfc1 _)]
    exact (rb_bind hr2).trans ((rb_bind hset).trans ((rb_bind hr3).trans e4))
  · intro w hw
    simp only [pathNodes, List.mem_cons, List.mem_append, not_or] at hw
    obtain ⟨hwb, hwt, hwf, hws, hwq⟩ := hw
    have hwp : w ∉ (plug t (⟨.left, fc, fe, fs⟩ :: q)).toList := by
      rw [(perm_plug t _).mem_iff]
      simp [pathNodes, hwt, hwf, hws, hwq]
    rw [k4 w hwp, put_node_of_ne _ hwb, put_node_of_ne _ hwf, k1 w hwt]

/-- The tree at `a`, when the pointer from above has been turned to the successor `b`, which is still in
its place under the frames `q`. -/
structure Relinked (s : RbState) (a b : RbPtr) (c cs : Color) (l br : RbTree RbPtr)
    (q p : List (Frame RbPtr)) : Prop where
  placed : Placed (a :: b :: (l.toList ++ (br.toList ++ pathNodes q)) ++ pathNodes p)
  old : s.node a = some (rbCell .left (parentPtr p) c (treePtr l)
    (treePtr (plug (RbTree.join .right cs b br .leaf) q)))
  new : s.node b = some (rbCell .right (parentIn a q) cs (treePtr br) 0)
  left : TreeAt s a l
  right : TreeAt s b br
  around : Around s a b q
  path : PathAt s b p

variable {c cs : Color} {l br : RbTree RbPtr} {p : List (Frame RbPtr)} {turns : Nat}

/-- Where the nodes are: at `a` and `b`, in `l`, in `br`, on `q` and on `p`. -/
theorem Relinked.apart (h : Relinked s a b c cs l br q p) :
    (a ≠ b ∧ a ∉ l.toList ∧ a ∉ br.toList ∧ a ∉ pathNodes q) ∧
      (b ∉ l.toList ∧ b ∉ br.toList ∧ b ∉ pathNodes q) ∧
      (∀ w ∈ l.toList, w ∉ br.toList ∧ w ∉ pathNodes q) ∧
      ∀ w ∈ pathNodes p, w ≠ b ∧ w ∉ l.toList ∧ w ∉ br.toList ∧ w ∉ pathNodes q := by
  have hn := h.placed.1
  simp only [List.cons_append, List.nodup_cons, List.nodup_append, List.mem_cons, List.mem_append,
    not_or] at hn
  obtain ⟨⟨hab, ⟨hal, habr, haq⟩, -⟩, ⟨⟨hbl, hbbr, hbq⟩, hbp⟩, ⟨-, -, hld⟩, -, hpd⟩ := hn
  refine ⟨⟨hab, hal, habr, haq⟩, ⟨hbl, hbbr, hbq⟩, fun w hw => ⟨fun hm => ?_, fun hm => ?_⟩,
    fun w hw => ⟨fun e => hbp (e ▸ hw), fun hm => ?_, fun hm => ?_, fun hm => ?_⟩⟩
  · exact hld w hw w (.inl hm) rfl
  · exact hld w hw w (.inr hm) rfl
  · exact hpd w (.inl hm) w hw rfl
  · exact hpd w (.inr (.inl hm)) w hw rfl
  · exact hpd w (.inr (.inr hm)) w hw rfl

theorem Relinked.aligned (h : Relinked s a b c cs l br q p) {w : RbPtr}
    (hw : w = a ∨ w = b ∨ w ∈ pathNodes q) : Aligned w := by
  refine (h.placed.2 w ?_).2
  simp only [List.cons_append, List.mem_cons, List.mem_append]
  tauto

/-- The pointer from above goes to the successor. -/
theorem rbRelink_successor
    (h : Rep s (plug (RbTree.join .left c a l (plug (RbTree.join .right cs b br .leaf) q)) p)) :
    ∃ s1, rbRelink .left (parentPtr p) a b s = some ((), s1) ∧ Relinked s1 a b c cs l br q p ∧
      Keeps (pathNodes p) s s1 := by
  obtain ⟨htree, hp, hpl⟩ := rep_plug.mp h
  obtain ⟨ha, hlt, hrt⟩ := treeAt_join.mp htree
  obtain ⟨hbt, har⟩ := treeAt_plug.mp hrt
  obtain ⟨hb, hbr, -⟩ := treeAt_join.mp hbt
  rw [treePtr_join] at hp har
  have hperm : (a :: b :: (l.toList ++ (br.toList ++ pathNodes q))).Perm
      (RbTree.join .left c a l (plug (RbTree.join .right cs b br .leaf) q)).toList := by
    refine ((List.Perm.cons a ?_).trans perm_join.symm)
    refine List.perm_middle.symm.trans ?_
    refine List.Perm.append_left _ ?_
    exact ((perm_plug _ q).trans (perm_join_leaf.append_right _)).symm
  have hpl' : Placed (a :: b :: (l.toList ++ (br.toList ++ pathNodes q)) ++ pathNodes p) :=
    hpl.perm (hperm.append_right _)
  have hn := hpl'.1
  simp only [List.cons_append, List.nodup_cons, List.nodup_append, List.mem_cons, List.mem_append,
    not_or] at hn
  obtain ⟨⟨-, -, hap⟩, ⟨-, hbp⟩, -, hpn, hpd⟩ := hn
  obtain ⟨s1, e1, hp1, k1⟩ := rbRelink_path hp
    ⟨List.nodup_cons.mpr ⟨hap, hpn⟩, fun w hw => hpl'.2 w (by
      simp only [List.mem_cons] at hw
      obtain rfl | hw := hw <;> simp [*])⟩ .left b
  exact ⟨s1, e1, ⟨hpl', (k1 a hap).trans ha, (k1 b hbp).trans hb,
    hlt.keeps k1 fun w hw hm => hpd w (.inl hw) w hm rfl,
    hbr.keeps k1 fun w hw hm => hpd w (.inr (.inl hw)) w hm rfl,
    har.keeps k1 fun w hw hm => hpd w (.inr (.inr hw)) w hm rfl, hp1⟩, k1⟩

/-- The successor is in its new place, with what its old place has become on its right. -/
theorem Relinked.finish {s1 s2 s' : RbState} (h : Relinked s1 a b c cs l br q p)
    (k1 : Keeps (pathNodes p) s s1) (k2 : Keeps (b :: (br.toList ++ pathNodes q)) s1 s2)
    (r2 : s2.root = s1.root) (ht2 : TreeAt s2 b (plug br q))
    (hb : s'.node b = some (rbCell .left (parentPtr p) c (treePtr l) (treePtr (plug br q))))
    (hl : TreeAt s' b l) (k3 : Keeps (b :: l.toList) s2 s') (r3 : s'.root = s2.root) :
    Rep s' (plug br (q ++ ⟨.right, c, b, l⟩ :: p)) ∧
      Keeps (plug br (q ++ ⟨.right, c, b, l⟩ :: p)).toList s s' := by
  obtain ⟨-, ⟨hbl, hbbr, hbq⟩, hld, hpd⟩ := h.apart
  rw [plug_append]
  show Rep s' (plug (RbTree.join .left c b l (plug br q)) p) ∧
    Keeps (plug (RbTree.join .left c b l (plug br q)) p).toList s s'
  have hperm : ((RbTree.join .left c b l (plug br q)).toList ++ pathNodes p).Perm
      (b :: (l.toList ++ (br.toList ++ pathNodes q)) ++ pathNodes p) :=
    (perm_join.trans (((perm_plug br q).append_left _).cons b)).append_right _
  refine ⟨rep_plug.mpr ⟨treeAt_join.mpr ⟨hb, hl, ht2.keeps k3 fun w hw hm => ?_⟩, ?_, ?_⟩, ?_⟩
  · rw [(perm_plug br q).mem_iff, List.mem_append] at hw
    obtain rfl | hm := List.mem_cons.mp hm
    · exact hw.elim hbbr hbq
    · exact hw.elim (hld w hm).1 (hld w hm).2
  · rw [treePtr_join]
    refine h.path.frame (fun w hw => ?_) (r3.trans r2)
    obtain ⟨hwb, hwl, hwbr, hwq⟩ := hpd w hw
    rw [k3 w (by simp [hwb, hwl]), k2 w (by simp [hwb, hwbr, hwq])]
  · exact Placed.perm ⟨(List.nodup_cons.mp h.placed.1).2,
      fun w hw => h.placed.2 w (List.mem_cons_of_mem _ hw)⟩ hperm
  · intro w hw
    rw [((perm_plug _ p).trans hperm).mem_iff] at hw
    simp only [List.cons_append, List.mem_cons, List.mem_append, not_or] at hw
    obtain ⟨hwb, ⟨hwl, hwbr, hwq⟩, hwp⟩ := hw
    rw [k3 w (by simp [hwb, hwl]), k2 w (by simp [hwb, hwbr, hwq]), k1 w hwp]

theorem Relinked.nodup_left (h : Relinked s a b c cs l br q p) : (a :: b :: l.toList).Nodup := by
  obtain ⟨⟨hab, hal, -⟩, ⟨hbl, -⟩, -⟩ := h.apart
  have hln : l.toList.Nodup :=
    (List.nodup_append.mp (List.nodup_cons.mp (List.nodup_cons.mp
      (List.nodup_append.mp h.placed.1).1).2).2).1
  simp only [List.nodup_cons, List.mem_cons, not_or]
  exact ⟨⟨hab, hal⟩, hbl, hln⟩

/-- **The successor is the right child.** -/
theorem Relinked.adopt {s1 : RbState} (h : Relinked s1 a b c cs l br [] p)
    (k1 : Keeps (pathNodes p) s s1) (hl : l ≠ .leaf) :
    ∃ s', rbEraseAdopt a b s1 = some ((), s') ∧ Rep s' (plug br (⟨.right, c, b, l⟩ :: p)) ∧
      Keeps (plug br (⟨.right, c, b, l⟩ :: p)).toList s s' := by
  obtain ⟨s', e2, hb2, hl2, k2, r2⟩ := rbEraseAdopt_rep h.old
    (z := 0) (y := treePtr br) h.new h.left hl (h.aligned (.inl rfl)) h.nodup_left
  exact ⟨s', e2, h.finish k1 (Keeps.refl _ _) rfl h.right hb2 hl2 k2 r2⟩

/-- **The successor is deeper**, under the frame `f`. -/
theorem Relinked.detach {s1 : RbState} {f : Frame RbPtr}
    (h : Relinked s1 a b c cs l br (f :: q) p) (k1 : Keeps (pathNodes p) s s1) (hl : l ≠ .leaf)
    (hf : f.side = .left) :
    ∃ s2 s', rbEraseDetach a b (treePtr br) f.elem s1 = some ((), s2) ∧
      rbEraseAdopt a b s2 = some ((), s') ∧
      Rep s' (plug br (f :: q ++ ⟨.right, c, b, l⟩ :: p)) ∧
      Keeps (plug br (f :: q ++ ⟨.right, c, b, l⟩ :: p)).toList s s' := by
  obtain ⟨⟨hab, hal, habr, haq⟩, ⟨hbl, hbbr, hbq⟩, hld, -⟩ := h.apart
  have hplaced : Placed (a :: b :: (br.toList ++ pathNodes (f :: q))) := by
    refine ⟨?_, fun w hw => h.placed.2 w ?_⟩
    · have hright := (List.nodup_append.mp (List.nodup_cons.mp (List.nodup_cons.mp
        (List.nodup_append.mp h.placed.1).1).2).2).2.1
      simp only [List.nodup_cons, List.mem_cons, List.mem_append, not_or]
      exact ⟨⟨hab, habr, haq⟩, ⟨hbbr, hbq⟩, hright⟩
    · simp only [List.cons_append, List.mem_cons, List.mem_append] at hw ⊢
      tauto
  obtain ⟨s2, e2, hb2, ht2, k2, r2⟩ := rbEraseDetach_rep h.old (treePtr_plug_cons f q _ br) h.new
    h.right h.around hf hplaced
  have ha2 : s2.node a = _ := (k2 a (by simp [hab, habr, haq])).trans h.old
  have hl2 : TreeAt s2 a l := h.left.keeps k2 fun w hw hm => by
    obtain rfl | hm := List.mem_cons.mp hm
    · exact hbl hw
    · rw [List.mem_append] at hm
      exact hm.elim (hld w hw).1 (hld w hw).2
  obtain ⟨s', e3, hb3, hl3, k3, r3⟩ :=
    rbEraseAdopt_rep ha2 hb2 hl2 hl (h.aligned (.inl rfl)) h.nodup_left
  refine ⟨s2, s', e2, e3, h.finish k1 k2 r2 ht2 ?_ hl3 k3 r3⟩
  rw [hb3, treePtr_plug_cons f q _ br]

/-- **A node with two children** is replaced by its successor. -/
theorem rbEraseSuccessor_rep
    (h : Rep s (plug (RbTree.join .left c a l (plug (RbTree.join .right cs b br .leaf) q)) p))
    (hl : l ≠ .leaf) (hq : ∀ f ∈ q, f.side = .left)
    (hd : rbDescend .left turns (treePtr (plug (RbTree.join .right cs b br .leaf) q)) s =
      some (b, s)) :
    ∃ s', rbEraseSuccessor turns a s =
        some ((treePtr br, parentPtr (q ++ ⟨.right, c, b, l⟩ :: p), rbColorBit cs), s') ∧
      Rep s' (plug br (q ++ ⟨.right, c, b, l⟩ :: p)) ∧
      Keeps (plug br (q ++ ⟨.right, c, b, l⟩ :: p)).toList s s' := by
  obtain ⟨htree, -, hpl⟩ := rep_plug.mp h
  obtain ⟨ha, -⟩ := treeAt_join.mp htree
  obtain ⟨s1, e1, h1, k1⟩ := rbRelink_successor h
  have hright : rbChild .right a s = some (treePtr (plug (RbTree.join .right cs b br .leaf) q), s) :=
    rbChild_flip_eq ha
  unfold rbEraseSuccessor
  rw [rb_bind hright, rb_bind hd, rb_bind (rbParent_eq ha (parentPtr_aligned hpl)),
    rb_bind e1, rb_bind (rbChild_eq h1.new)]
  cases q with
  | nil =>
    have hA : Aligned a := h1.aligned (.inl rfl)
    obtain ⟨s', e2, hrep⟩ := h1.adopt k1 hl
    refine ⟨s', ?_, hrep⟩
    rw [rb_bind (rbParent_eq h1.new hA), rb_bind (rbColor_eq h1.new hA),
      if_pos (show parentIn a [] = a from rfl), rb_bind e2]
    rfl
  | cons f q =>
    have hF : Aligned f.elem := h1.aligned (.inr (.inr (by simp [pathNodes])))
    have hfa : f.elem ≠ a := fun e => h1.apart.1.2.2.2 (e ▸ by simp [pathNodes])
    obtain ⟨s2, s', e2, e3, hrep⟩ := h1.detach k1 hl (hq f List.mem_cons_self)
    refine ⟨s', ?_, hrep⟩
    rw [rb_bind (rbParent_eq h1.new hF), rb_bind (rbColor_eq h1.new hF),
      if_neg (show parentIn a (f :: q) ≠ a from hfa), parentIn, rb_bind e2, rb_bind e3]
    rfl

end Successor

section Erase

variable {s : RbState} {d : Side} {c : Color} {a b : RbPtr} {t T : RbTree RbPtr}
  {p q : List (Frame RbPtr)} {m turns : Nat}

/-- The end of `rb_erase`: the place `b` left is mended where a black node went. -/
theorem rbErase_mend (hb : (plug (RbTree.join d c b t .leaf) p).Bal m)
    (hc : (plug (RbTree.join d c b t .leaf) p).color = .black) (hpq : ∀ n, OnPath n p → OnPath n q)
    (h : Rep s (plug t q)) (hn : q.length < turns) :
    ∃ s' T' m', (if rbColorBit c = rbColorBit .black then rbEraseColor turns (treePtr t) (parentPtr q)
        else pure ()) s = some ((), s') ∧
      Reshapes s (plug t q) s' T' ∧ T'.Bal m' ∧ T'.color = .black := by
  obtain ⟨n, hplace, hp, -⟩ := OnPath.of_plug hb hc
  cases c with
  | black =>
    obtain ⟨k, rfl⟩ : ∃ k, n = k + 1 := by
      cases n with
      | zero => cases d <;> simp [RbTree.join, RbTree.Bal] at hplace
      | succ k => exact ⟨k, rfl⟩
    have ht := Bal.short (RbTree.bal_join_black.mp hplace).1
    obtain ⟨s', e, r⟩ := rbEraseColor_rep h ht (hpq _ hp) hn
    obtain ⟨m', hm, hblack⟩ := bal_eraseFix ht (hpq _ hp)
    exact ⟨s', _, m', by rw [if_pos rfl, e], r, hm, hblack⟩
  | red =>
    obtain ⟨⟨htc, ht⟩, -⟩ := RbTree.bal_join_red.mp hplace
    obtain ⟨m', hm, hblack⟩ := (hpq _ hp).plug ht (.inl htc)
    exact ⟨s, _, m', rfl, Reshapes.refl h, hm, hblack⟩

theorem erase_middle {xs ys : List RbPtr} (h : (xs ++ a :: ys).Nodup) :
    (xs ++ a :: ys).erase a = xs ++ ys := by
  have ha : a ∉ xs := fun hm => (List.nodup_append.mp h).2.2 a hm a List.mem_cons_self rfl
  rw [List.erase_append_right _ ha, List.erase_cons_head]

theorem toList_splice (h : (plug (RbTree.join d c a t .leaf) p).toList.Nodup) :
    (plug t p).toList = (plug (RbTree.join d c a t .leaf) p).toList.erase a := by
  rw [toList_plug] at h
  rw [toList_plug, toList_plug]
  cases d with
  | left =>
    have hs : before p ++ ((RbTree.join .left c a t .leaf).toList ++ after p) =
        (before p ++ t.toList) ++ a :: after p := by simp [RbTree.join, RbTree.toList]
    rw [hs] at h ⊢
    rw [erase_middle h, List.append_assoc]
  | right =>
    have hs : before p ++ ((RbTree.join .right c a t .leaf).toList ++ after p) =
        before p ++ a :: (t.toList ++ after p) := by simp [RbTree.join, RbTree.toList]
    rw [hs] at h ⊢
    rw [erase_middle h]

theorem toList_successor {c' : Color} {l u : RbTree RbPtr} (hq : ∀ f ∈ q, f.side = .left)
    (h : (plug (RbTree.join .left c a l
      (plug (RbTree.join .right c' b u .leaf) q)) p).toList.Nodup) :
    (plug u (q ++ ⟨.right, c, b, l⟩ :: p)).toList =
      (plug (RbTree.join .left c a l (plug (RbTree.join .right c' b u .leaf) q)) p).toList.erase a := by
  have hnew : (plug u (q ++ ⟨.right, c, b, l⟩ :: p)).toList =
      (before p ++ l.toList) ++ (b :: (u.toList ++ (after q ++ after p))) := by
    rw [plug_append, plug_cons, toList_plug, Frame.fill, RbTree.toList_join, toList_plug,
      before_left hq]
    simp
  have hold : (plug (RbTree.join .left c a l (plug (RbTree.join .right c' b u .leaf) q)) p).toList =
      (before p ++ l.toList) ++ a :: (b :: (u.toList ++ (after q ++ after p))) := by
    rw [toList_plug, RbTree.toList_join, toList_plug, before_left hq, RbTree.toList_join]
    simp [RbTree.toList]
  rw [hold] at h ⊢
  rw [erase_middle h, hnew]

/-- **`rb_erase`** takes one node out of a balanced tree and leaves a balanced tree of the others, in
the same order. Turns as many as the tree is high are enough, and the erased node is not written. -/
theorem rbErase_rep (h : Rep s T) (hb : T.Bal m) (hc : T.color = .black) (ha : a ∈ T.toList)
    (hn : T.height ≤ turns) :
    ∃ s' T' m', rbErase turns a s = some ((), s') ∧ Rep s' T' ∧ T'.toList = T.toList.erase a ∧
      T'.Bal m' ∧ T'.color = .black ∧ Keeps T'.toList s s' := by
  obtain ⟨c, l, r, p, rfl⟩ := exists_plug_of_mem ha
  have hnd := h.placed.1
  have hnode : s.node a = some (rbCell .left (parentPtr p) c (treePtr l) (treePtr r)) :=
    Rep.node (d := .left) h
  have hright : rbChild .right a s = some (treePtr r, s) := rbChild_flip_eq hnode
  have hleft := rbChild_eq hnode
  -- once the node is out of its place
  have hend : ∀ (d : Side) (c' : Color) (b : RbPtr) (t : RbTree RbPtr) (P q : List (Frame RbPtr))
      (s1 : RbState), plug (RbTree.node c l a r) p = plug (RbTree.join d c' b t .leaf) P →
      (∀ n, OnPath n P → OnPath n q) → q.length = P.length → Rep s1 (plug t q) →
      (plug t q).toList = (plug (RbTree.node c l a r) p).toList.erase a →
      Keeps (plug t q).toList s s1 →
      ∃ s' T' m', (if rbColorBit c' = rbColorBit .black then
          rbEraseColor turns (treePtr t) (parentPtr q) else pure ()) s1 = some ((), s') ∧
        Rep s' T' ∧ T'.toList = (plug (RbTree.node c l a r) p).toList.erase a ∧ T'.Bal m' ∧
        T'.color = .black ∧ Keeps T'.toList s s' := by
    intro d c' b t P q s1 hT hpq hlen h1 htl hk
    rw [hT] at hb hc hn
    have hheight := height_plug (RbTree.join d c' b t .leaf) P
    have hjoin : 1 ≤ (RbTree.join d c' b t .leaf).height := by
      cases d <;> simp [RbTree.join, RbTree.height]
    have hdepth : q.length < turns := by omega
    obtain ⟨s', T', m', e, r1, hm, hblack⟩ := rbErase_mend hb hc hpq h1 hdepth
    refine ⟨s', T', m', e, r1.rep, r1.order.trans htl, hm, hblack, ?_⟩
    rw [r1.order]
    exact hk.trans r1.keeps
  rw [rbErase, bind_assoc, rb_bind hleft]
  by_cases hl : l = .leaf
  · -- no left child
    subst hl
    have h' : Rep s (plug (RbTree.join .right c a r .leaf) p) := h
    obtain ⟨s1, e1, h1, k1⟩ := rbEraseSplice_rep h'
    rw [if_pos treePtr_leaf, bind_assoc, rb_bind hright, rb_bind e1]
    exact hend .right c a r p p s1 rfl (fun _ => id) rfl h1 (toList_splice (d := .right) hnd) k1
  have hl' : Rep s (plug l (⟨.left, c, a, r⟩ :: p)) := h
  rw [if_neg (hl'.ptr_ne_zero hl), bind_assoc, rb_bind hright]
  by_cases hr : r = .leaf
  · -- no right child
    subst hr
    have h' : Rep s (plug (RbTree.join .left c a l .leaf) p) := h
    obtain ⟨s1, e1, h1, k1⟩ := rbEraseSplice_rep h'
    rw [if_pos treePtr_leaf, bind_assoc, rb_bind hleft, rb_bind e1]
    exact hend .left c a l p p s1 rfl (fun _ => id) rfl h1 (toList_splice (d := .left) hnd) k1
  · -- the successor is the first node on the right
    have hr' : Rep s (plug r (⟨.right, c, a, l⟩ :: p)) := h
    have hrh := height_plug r (⟨.right, c, a, l⟩ :: p)
    have hrn : r.height ≤ turns := by
      have hT : plug r (⟨.right, c, a, l⟩ :: p) = plug (RbTree.node c l a r) p := rfl
      rw [hT] at hrh
      omega
    obtain ⟨c', b, u, q, rfl, hq, hd⟩ := rbDescend_rep (d := .left) hr' hr hrn
    rw [if_neg (hr'.ptr_ne_zero hr)]
    have h' : Rep s (plug (RbTree.join .left c a l (plug (RbTree.join .right c' b u .leaf) q)) p) := h
    obtain ⟨s1, e1, h1, k1⟩ := rbEraseSuccessor_rep h' hl hq hd
    rw [rb_bind e1]
    refine hend .right c' b u (q ++ ⟨.right, c, a, l⟩ :: p) _ s1 ?_ (fun _ => onPath_elem) (by simp) h1
      (toList_successor hq hnd) k1
    rw [plug_append]
    rfl

theorem rbErase_rep_root : ∃ s' T' m', rbErase 2 32 smallStore = some ((), s') ∧ Rep s' T' ∧
    T'.toList = smallTree.toList.erase 32 ∧ T'.Bal m' ∧ T'.color = .black ∧
    Keeps T'.toList smallStore s' :=
  rbErase_rep smallStore_rep smallTree_bal rfl (by decide) (by decide)

end Erase

end Hurlex
