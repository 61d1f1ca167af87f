import Hurlex.Rbtree.RbtreeInsert

/-!
# `__rb_erase_color`

In memory `__rb_erase_color` does what `eraseFix` does to the tree. That it may follow the sibling's
pointers without asking is where the black heights come in: beside a subtree that is one black node
short the sibling is a node, and a red one has children.
-/

namespace Hurlex

open Lib.RedBlack

section Turns

variable {s : RbState} {d : Side} {c e : Color} {a b x : RbPtr} {t u near far : RbTree RbPtr}
  {p : List (Frame RbPtr)}

/-- The sibling of a place, as a place. -/
theorem rep_sibling (h : Rep s (plug (RbTree.join d c a t u) p)) :
    Rep s (plug u (⟨d.flip, c, a, t⟩ :: p)) := by rwa [plug_join_flip] at h

/-- A red sibling goes up over the parent. -/
theorem rbEraseColorSibling_red
    (h : Rep s (plug (RbTree.join d c a t (RbTree.join d .red x near far)) p)) :
    ∃ s', rbEraseColorSibling d a s = some (treePtr near, s') ∧
      Reshapes s (plug (RbTree.join d c a t (RbTree.join d .red x near far)) p) s'
        (plug (RbTree.join d .black x (RbTree.join d .red a t near) far) p) := by
  have hs := rep_sibling h
  have hother := rbChild_flip_eq h.node
  rw [treePtr_join] at hother
  obtain ⟨s1, e1, r1⟩ := rbSetBlack_rep hs
  rw [← plug_join_flip, ← plug_join_flip] at r1
  obtain ⟨s2, e2, r2⟩ := rbSetRed_rep r1.rep
  obtain ⟨s3, e3, r3⟩ := rbRotate_rep r2.rep
  refine ⟨s3, ?_, (r1.trans r2).trans r3⟩
  have hin : Rep s3 (plug (RbTree.join d .red a t near) (⟨d, .black, x, far⟩ :: p)) := r3.rep
  rw [rbEraseColorSibling, rb_bind hother, rb_bind (rbIsRed_eq hs.node hs.aligned),
    if_pos (decide_eq_true rfl), rb_bind e1, rb_bind e2, rb_bind e3, rbChild_flip_eq hin.node]

theorem rbEraseColorSibling_black
    (h : Rep s (plug (RbTree.join d c a t (RbTree.join d .black x near far)) p)) :
    rbEraseColorSibling d a s = some (x, s) := by
  have hs := rep_sibling h
  have hother := rbChild_flip_eq h.node
  rw [treePtr_join] at hother
  rw [rbEraseColorSibling, rb_bind hother, rb_bind (rbIsRed_eq hs.node hs.aligned)]
  rfl

theorem rbBothBlack_rep (h : Rep s (plug (RbTree.join d c a t u) p)) :
    rbBothBlack a s = some (decide (t.color = .black ∧ u.color = .black), s) := by
  obtain ⟨l, r, hlr, hd⟩ : ∃ l r, RbTree.join d c a t u = RbTree.join .left c a l r ∧
      (l.color = .black ∧ r.color = .black ↔ t.color = .black ∧ u.color = .black) := by
    cases d with
    | left => exact ⟨t, u, rfl, Iff.rfl⟩
    | right => exact ⟨u, t, rfl, and_comm⟩
  rw [hlr] at h
  have hl : Rep s (plug l (⟨.left, c, a, r⟩ :: p)) := h
  have hright : rbChild .right a s = some (treePtr r, s) := rbChild_flip_eq h.node
  rw [rbBothBlack, rb_bind (rbChild_eq h.node), rb_bind (rbNullOrBlack_rep hl)]
  by_cases hlb : l.color = .black
  · rw [if_pos (decide_eq_true hlb), rb_bind hright, rbNullOrBlack_rep (rep_sibling h)]
    simp only [← hd, hlb, true_and]
  · rw [if_neg (by simpa using hlb)]
    simp [rb_pure, ← hd, hlb]

/-- The end of a turn: the parent goes down to the short side, under its sibling with a red far
child. -/
theorem rbEraseColorLift_rep
    (h : Rep s (plug (RbTree.join d c a t (RbTree.join d e x near far)) p)) (hf : far.color = .red) :
    ∃ s', rbEraseColorLift d a x s = some (.stop s'.root, s') ∧
      Reshapes s (plug (RbTree.join d c a t (RbTree.join d e x near far)) p) s'
        (plug (RbTree.join d c x (RbTree.join d .black a t near) (far.setColor .black)) p) := by
  obtain ⟨y, f1, f2, rfl⟩ := RbTree.exists_join_of_red hf d
  obtain ⟨s1, e1, r1⟩ := rbSetColor_rep (rep_sibling h) c
  rw [← plug_join_flip, ← plug_join_flip] at r1
  obtain ⟨s2, e2, r2⟩ := rbSetBlack_rep r1.rep
  have h2 := rep_sibling r2.rep
  have hfar := rbChild_flip_eq h2.node
  rw [treePtr_join] at hfar
  obtain ⟨s3, e3, r3⟩ := rbSetBlack_rep (rep_sibling h2)
  simp only [← plug_join_flip] at r3
  obtain ⟨s4, e4, r4⟩ := rbRotate_rep r3.rep
  rw [RbTree.setColor_join]
  refine ⟨s4, ?_, ((r1.trans r2).trans r3).trans r4⟩
  rw [rbEraseColorLift, rb_bind (rbColor_eq h.node h.aligned), rb_bind e1, rb_bind e2, rb_bind hfar,
    rb_bind e3, rb_bind e4]
  rfl

/-- A black far child is replaced: the red near child goes up over the sibling. -/
theorem rbEraseColorFar_black {n1 n2 : RbTree RbPtr}
    (h : Rep s
      (plug (RbTree.join d c a t (RbTree.join d .black x (RbTree.join d .red b n1 n2) far)) p))
    (hf : far.color = .black) :
    ∃ s', rbEraseColorFar d a x s = some (b, s') ∧
      Reshapes s
        (plug (RbTree.join d c a t (RbTree.join d .black x (RbTree.join d .red b n1 n2) far)) p) s'
        (plug (RbTree.join d c a t (RbTree.join d .black b n1 (RbTree.join d .red x n2 far))) p) := by
  have hs := rep_sibling h
  have hfar := rbNullOrBlack_rep (rep_sibling hs)
  rw [hf] at hfar
  have hnear := rbChild_eq hs.node
  rw [treePtr_join] at hnear
  obtain ⟨s1, e1, r1⟩ := rbSetBlack_rep (p := ⟨d, .black, x, far⟩ :: ⟨d.flip, c, a, t⟩ :: p) hs
  obtain ⟨s2, e2, r2⟩ := rbSetRed_rep (d := d) (a := x) (p := ⟨d.flip, c, a, t⟩ :: p) r1.rep
  have h2 : Rep s2 (plug (RbTree.join d.flip .red x far (RbTree.join d.flip .black b n2 n1))
      (⟨d.flip, c, a, t⟩ :: p)) := by simpa only [join_flip] using r2.rep
  obtain ⟨s3, e3, r3⟩ := rbRotate_rep h2
  simp only [join_flip] at r3
  have r : Reshapes s _ s3 _ := (r1.trans r2).trans r3
  simp only [plug_cons, Frame.fill, join_flip] at r
  refine ⟨s3, ?_, r⟩
  have hother := rbChild_flip_eq r.rep.node
  rw [treePtr_join] at hother
  rw [rbEraseColorFar, rb_bind (rbChild_flip_eq hs.node), rb_bind hfar,
    if_pos (decide_eq_true rfl), rb_bind hnear, rb_bind e1, rb_bind e2, rb_bind e3, hother]

theorem rbEraseColorFar_red
    (h : Rep s (plug (RbTree.join d c a t (RbTree.join d e x near far)) p)) (hf : far.color = .red) :
    rbEraseColorFar d a x s = some (x, s) := by
  have hs := rep_sibling h
  have hfar := rbNullOrBlack_rep (rep_sibling hs)
  rw [hf] at hfar
  rw [rbEraseColorFar, rb_bind (rbChild_flip_eq hs.node), rb_bind hfar]
  rfl

/-- What a turn leaves, given what it makes of the subtree at the parent. -/
def RbTurn.Leaves (turn : RbTurn) (s : RbState) (a : RbPtr) (p : List (Frame RbPtr)) :
    Repair RbPtr → Prop
  | .short _ => turn = .next a (parentPtr p)
  | .done _ => turn = .stop s.root

/-- **A turn about a black sibling** does what `eraseStep` does. -/
theorem rbEraseColorStep_rep
    (h : Rep s (plug (RbTree.join d c a t (RbTree.join d .black x near far)) p)) :
    ∃ s' turn, rbEraseColorStep d a x s = some (turn, s') ∧
      turn.Leaves s' a p (eraseStep d c a t near x far) ∧
      Reshapes s (plug (RbTree.join d c a t (RbTree.join d .black x near far)) p) s'
        (plug (eraseStep d c a t near x far).tree p) := by
  have hs := rep_sibling h
  rw [rbEraseColorStep, rb_bind (rbBothBlack_rep hs)]
  by_cases hb : near.color = .black ∧ far.color = .black
  · rw [if_pos (decide_eq_true hb), eraseStep_of_black hb.1 hb.2]
    obtain ⟨s1, e1, r1⟩ := rbSetRed_rep hs
    rw [← plug_join_flip, ← plug_join_flip] at r1
    have hpar := rbParent_rep r1.rep RbTree.join_ne_leaf
    rw [treePtr_join] at hpar
    exact ⟨s1, _, by rw [rb_bind e1, rb_bind hpar, rb_pure], rfl, r1⟩
  rw [if_neg (by simpa using hb)]
  by_cases hf : far.color = .red
  · rw [rb_bind (rbEraseColorFar_red h hf), eraseStep_of_far hf]
    obtain ⟨s1, e1, r1⟩ := rbEraseColorLift_rep h hf
    exact ⟨s1, _, e1, rfl, r1⟩
  have hfb := color_eq_black hf
  have hn : near.color = .red := by
    cases hc : near.color with
    | red => rfl
    | black => exact absurd ⟨hc, hfb⟩ hb
  obtain ⟨b, n1, n2, rfl⟩ := RbTree.exists_join_of_red hn d
  obtain ⟨s1, e1, r1⟩ := rbEraseColorFar_black h hfb
  obtain ⟨s2, e2, r2⟩ := rbEraseColorLift_rep r1.rep (RbTree.color_join ..)
  rw [RbTree.setColor_join] at r2
  rw [rb_bind e1, eraseStep_of_near hf]
  exact ⟨s2, _, e2, rfl, r1.trans r2⟩

end Turns

section Loop

variable {s : RbState} {t : RbTree RbPtr} {p : List (Frame RbPtr)} {n : Nat}

/-- The root of the tree is the hole itself or one of the nodes over it. -/
theorem PathAt.root_mem {hole : RbPtr} {f : Frame RbPtr} (h : PathAt s hole (f :: p)) :
    s.root ∈ pathNodes (f :: p) := by
  induction p generalizing hole f with
  | nil =>
    have hr : s.root = f.elem := h.2.2
    simp [hr, pathNodes]
  | cons g p ih =>
    have := ih h.2.2
    rw [pathNodes]
    exact List.mem_cons_of_mem _ (List.mem_append_right _ this)

theorem Rep.ptr_ne_root {f : Frame RbPtr} (h : Rep s (plug t (f :: p))) :
    treePtr t ≠ s.root := by
  obtain ⟨-, hp, hpl⟩ := rep_plug.mp h
  have hm := hp.root_mem
  by_cases ht : t = .leaf
  · rw [ht]
    exact (hpl.2 _ (List.mem_append_right _ hm)).1.symm
  · exact fun e => (List.nodup_append.mp hpl.1).2.2 _ (treePtr_mem ht) _ hm e

theorem rbRoot_eq : rbRoot s = some (s.root, s) := rfl

/-- The loop ends at a red node. -/
theorem rbEraseColorLoop_red (h : Rep s (plug t p)) (hc : t.color = .red) (turns : Nat)
    (parent : RbPtr) :
    rbEraseColorLoop (turns + 1) (treePtr t) parent s = some (treePtr t, s) := by
  have hb := rbNullOrBlack_rep h
  rw [hc] at hb
  rw [rbEraseColorLoop, rb_bind hb]
  rfl

/-- The loop ends at the root. -/
theorem rbEraseColorLoop_root (h : Rep s t) (turns : Nat) (parent : RbPtr) :
    rbEraseColorLoop (turns + 1) (treePtr t) parent s = some (treePtr t, s) := by
  have hb := rbNullOrBlack_rep (p := []) h
  rw [rbEraseColorLoop, rb_bind hb]
  split
  · rw [rb_bind rbRoot_eq, h.root, if_neg (fun hne => hne rfl)]
    rfl
  · rfl

/-- At a black node that is not the root the loop takes a turn on the side the node is on. -/
theorem rbEraseColorLoop_turn {d : Side} {c : Color} {a : RbPtr} {u : RbTree RbPtr}
    (h : Rep s (plug (RbTree.join d c a t u) p)) (hc : t.color = .black) (hu : u ≠ .leaf)
    (turns : Nat) :
    rbEraseColorLoop (turns + 1) (treePtr t) a s =
      (rbEraseColorTurn d a >>= fun turn =>
        match turn with
        | .next node parent => rbEraseColorLoop turns node parent
        | .stop node => pure node) s := by
  have ht : Rep s (plug t (⟨d, c, a, u⟩ :: p)) := h
  have hb := rbNullOrBlack_rep ht
  rw [hc] at hb
  have hswap : Rep s (plug (RbTree.join d.flip c a u t) p) := by rwa [join_flip]
  have hne : treePtr t ≠ treePtr u := hswap.child_ne hu
  rw [rbEraseColorLoop, rb_bind hb, if_pos (decide_eq_true rfl), rb_bind rbRoot_eq,
    if_pos ht.ptr_ne_root, bind_assoc]
  cases d with
  | left =>
    rw [rb_bind (rbChild_eq h.node)]
    exact congrFun (congrArg (· >>= _) (if_pos rfl)) s
  | right =>
    have hl : rbChild .left a s = some (treePtr u, s) := rbChild_flip_eq h.node
    rw [rb_bind hl]
    exact congrFun (congrArg (· >>= _) (if_neg hne.symm)) s

/-- **The loop of `__rb_erase_color`**, with the node it ends at: blackening that node gives the tree
`eraseFix` makes. -/
theorem rbEraseColorLoop_rep (h : Rep s (plug t p)) (ht : Short t n) (hp : OnPath (n + 1) p)
    {turns : Nat} (hn : p.length < turns) :
    ∃ s' t' p', rbEraseColorLoop turns (treePtr t) (parentPtr p) s = some (treePtr t', s') ∧
      Reshapes s (plug t p) s' (plug t' p') ∧ plug (t'.setColor .black) p' = eraseFix t p := by
  obtain ⟨turns, rfl⟩ : ∃ k, turns = k + 1 := ⟨turns - 1, by omega⟩
  induction p generalizing s t n turns with
  | nil => exact ⟨s, t, [], rbEraseColorLoop_root h turns _, Reshapes.refl h, rfl⟩
  | cons f p ih =>
    by_cases hc : t.color = .red
    · refine ⟨s, t, f :: p, rbEraseColorLoop_red h hc turns _, Reshapes.refl h, ?_⟩
      rw [eraseFix, if_pos hc]
    have hcb := color_eq_black hc
    have htb := ht.1 hcb
    simp only [List.length_cons] at hn
    obtain ⟨turns, rfl⟩ : ∃ k, turns = k + 1 := ⟨turns - 1, by omega⟩
    obtain ⟨d, c, a, u⟩ := f
    obtain ⟨x, near, far, rfl, hnb, hfb⟩ | ⟨rfl, x, b, n₁, n₂, far, rfl, h1, h2, -⟩ := hp.sibling
    · -- a black sibling
      have hloop := rbEraseColorLoop_turn h hcb RbTree.join_ne_leaf (turns + 1)
      obtain ⟨s1, turn, e1, hl, r1⟩ := rbEraseColorStep_rep h
      have eturn : rbEraseColorTurn d a s = some (turn, s1) := by
        rw [rbEraseColorTurn, rb_bind (rbEraseColorSibling_black h), e1]
      rw [rb_bind eturn] at hloop
      obtain ⟨b, v, w, hE, -⟩ | ⟨w, hE, hw⟩ := eraseStep_spec d c a x htb hnb hfb
      · rw [hE] at hl r1
        obtain rfl : turn = .stop s1.root := hl
        refine ⟨s1, plug (RbTree.join d c b v w) p, [], ?_, r1, ?_⟩
        · rw [parentPtr, hloop, r1.rep.root]
          rfl
        · rw [eraseFix_done hc hE, plug_nil]
      · rw [hE] at hl r1
        obtain rfl : turn = .next a (parentPtr p) := hl
        obtain ⟨m, hs, hp⟩ := short_join htb hw hp
        obtain ⟨s', t', p', e2, r2, hfix⟩ := ih r1.rep hs hp turns (by omega)
        rw [Repair.tree, treePtr_join] at e2
        refine ⟨s', t', p', ?_, r1.trans r2, ?_⟩
        · rw [parentPtr, hloop]
          exact e2
        · rw [eraseFix_short hc hE, hfix, Repair.tree]
    · -- a red sibling
      have hloop := rbEraseColorLoop_turn h hcb RbTree.join_ne_leaf (turns + 1)
      obtain ⟨s1, e1, r1⟩ := rbEraseColorSibling_red h
      rw [treePtr_join] at e1
      obtain ⟨s2, turn, e2, hl, r2⟩ :=
        rbEraseColorStep_rep (p := ⟨d, .black, x, far⟩ :: p) r1.rep
      have eturn : rbEraseColorTurn d a s = some (turn, s2) := by
        rw [rbEraseColorTurn, rb_bind e1, e2]
      rw [rb_bind eturn] at hloop
      obtain ⟨b', v, w, hE, -⟩ | ⟨w, hE, hw⟩ := eraseStep_spec d .red a b htb h1 h2
      · rw [hE] at hl r2
        obtain rfl : turn = .stop s2.root := hl
        refine ⟨s2, plug (RbTree.join d .red b' v w) (⟨d, .black, x, far⟩ :: p), [], ?_,
          r1.trans r2, ?_⟩
        · rw [parentPtr, hloop, r2.rep.root]
          rfl
        · rw [eraseFix_red_done hc hE, plug_nil]
      · rw [hE] at hl r2
        obtain rfl : turn = .next a x := hl
        have hstop := rbEraseColorLoop_red r2.rep (RbTree.color_join ..) turns x
        rw [Repair.tree, treePtr_join] at hstop
        refine ⟨s2, RbTree.join d .red a t w, ⟨d, .black, x, far⟩ :: p, ?_, r1.trans r2, ?_⟩
        · rw [parentPtr, hloop, treePtr_join]
          exact hstop
        · rw [eraseFix_red_short hc hE]

/-- **`__rb_erase_color` does what `eraseFix` does.** It follows no `NULL` pointer, and one turn more
than the place lies deep is enough. -/
theorem rbEraseColor_rep (h : Rep s (plug t p)) (ht : Short t n) (hp : OnPath (n + 1) p)
    {turns : Nat} (hn : p.length < turns) :
    ∃ s', rbEraseColor turns (treePtr t) (parentPtr p) s = some ((), s') ∧
      Reshapes s (plug t p) s' (eraseFix t p) := by
  obtain ⟨s1, t', p', e1, r1, hfix⟩ := rbEraseColorLoop_rep h ht hp hn
  rw [← hfix]
  by_cases ht' : t' = .leaf
  · subst ht'
    refine ⟨s1, ?_, r1⟩
    rw [rbEraseColor, rb_bind e1]
    rfl
  · obtain ⟨c, a, l, r, rfl⟩ := RbTree.exists_join_of_ne ht' .left
    obtain ⟨s', e2, r2⟩ := rbSetBlack_rep r1.rep
    rw [RbTree.setColor_join]
    refine ⟨s', ?_, r1.trans r2⟩
    rw [rbEraseColor, rb_bind e1, treePtr_join, if_pos r1.rep.elem_ne_zero, e2]

end Loop

end Hurlex
