import Hurlex.Lib.RedBlackRepair
import Hurlex.Rbtree.RbtreeOps

/-!
# `rb_insert_color`

In memory `rb_insert_color` does what `insertFix` does to the tree: a turn of its loop is either the
recolouring (`rbInsertColorTurn_red`) or the rotations (`rbInsertColorTurn_black`), and after
rotations the loop ends.
-/

namespace Hurlex

open Lib.RedBlack

section Turns

variable {s : RbState} {d e : Side} {c c' : Color} {a b : RbPtr} {t u w : RbTree RbPtr}
  {p : List (Frame RbPtr)}

/-- A turn under a red uncle. -/
theorem rbInsertColorTurn_red
    (h : Rep s (plug (RbTree.join e c' b (RbTree.join d c a t u) w) p)) (hw : w.color = .red) :
    ∃ s', rbInsertColorTurn e (treePtr t) a b s = some (b, s') ∧
      Reshapes s (plug (RbTree.join e c' b (RbTree.join d c a t u) w) p) s'
        (plug (RbTree.join e .red b (RbTree.join d .black a t u) (w.setColor .black)) p) := by
  obtain ⟨x, w1, w2, rfl⟩ := RbTree.exists_join_of_red hw .left
  have huncle := h
  rw [plug_join_flip] at huncle
  obtain ⟨s1, e1, r1⟩ := rbSetBlack_rep huncle
  rw [← plug_join_flip, ← plug_join_flip] at r1
  obtain ⟨s2, e2, r2⟩ := rbSetBlack_rep (p := ⟨e, c', b, _⟩ :: p) r1.rep
  obtain ⟨s3, e3, r3⟩ := rbSetRed_rep (d := e) (a := b) (p := p) r2.rep
  refine ⟨s3, ?_, (r1.trans r2).trans r3⟩
  unfold rbInsertColorTurn
  rw [rb_bind (rbChild_flip_eq h.node), rb_bind (rbNonNullRed_rep huncle)]
  simp only [RbTree.color_join, decide_true, if_true, treePtr_join]
  rw [rb_bind e1, rb_bind e2, rb_bind e3]
  rfl

/-- The part of a turn after the inner rotation, if there was one: `parent` goes up over
`gparent`. -/
theorem rbRotate_gparent (h : Rep s (plug (RbTree.join e c' b (RbTree.join e c a t u) w) p)) :
    ∃ s1 s2 s', rbSetBlack a s = some ((), s1) ∧ rbSetRed b s1 = some ((), s2) ∧
      rbRotate e.flip b s2 = some ((), s') ∧
      Reshapes s (plug (RbTree.join e c' b (RbTree.join e c a t u) w) p) s'
        (plug (RbTree.join e .black a t (RbTree.join e .red b u w)) p) := by
  obtain ⟨s1, e1, r1⟩ := rbSetBlack_rep (p := ⟨e, c', b, w⟩ :: p) h
  obtain ⟨s2, e2, r2⟩ := rbSetRed_rep (d := e) (a := b) (p := p) r1.rep
  have h2 : Rep s2 (plug (RbTree.join e.flip .red b w (RbTree.join e.flip .black a u t)) p) := by
    simpa only [join_flip] using r2.rep
  obtain ⟨s3, e3, r3⟩ := rbRotate_rep h2
  simp only [join_flip] at r3
  exact ⟨s1, s2, s3, e1, e2, e3, (r1.trans r2).trans r3⟩

/-- A turn that rotates. The node it goes on with stands under a black one. -/
theorem rbInsertColorTurn_black
    (h : Rep s (plug (RbTree.join e c' b (RbTree.join d .red a t u) w) p)) (ht : t ≠ .leaf)
    (hw : w.color = .black) :
    ∃ s' t' f, rbInsertColorTurn e (treePtr t) a b s = some (treePtr t', s') ∧
      t' ≠ .leaf ∧ f.color = .black ∧
      plug t' (f :: p) = plug (rotateUp ⟨d, .red, a, u⟩ ⟨e, c', b, w⟩ t) p ∧
      Reshapes s (plug (RbTree.join e c' b (RbTree.join d .red a t u) w) p) s'
        (plug (rotateUp ⟨d, .red, a, u⟩ ⟨e, c', b, w⟩ t) p) := by
  have huncle := h
  rw [plug_join_flip] at huncle
  have hred := rbNonNullRed_rep huncle
  rw [hw] at hred
  have hpar : Rep s (plug (RbTree.join d .red a t u) (⟨e, c', b, w⟩ :: p)) := h
  unfold rbInsertColorTurn
  rw [rb_bind (rbChild_flip_eq h.node), rb_bind hred]
  simp only [reduceCtorEq, decide_false, Bool.false_eq_true, if_false]
  by_cases hde : d = e
  · -- the outer grandchild
    subst hde
    obtain ⟨s1, s2, s3, e1, e2, e3, r⟩ := rbRotate_gparent h
    refine ⟨s3, t, ⟨d, .black, a, RbTree.join d .red b u w⟩, ?_, ht, rfl, ?_, ?_⟩
    · rw [bind_assoc, rb_bind (rbChild_flip_eq hpar.node), if_neg (hpar.child_ne ht), pure_bind,
        rb_bind e1, rb_bind e2, rb_bind e3]
      rfl
    · simp [rotateUp, Frame.fill]
    · simpa [rotateUp] using r
  · -- the inner grandchild
    obtain rfl := Side.eq_flip_of_ne hde
    obtain ⟨ct, x, t1, t2, rfl⟩ := RbTree.exists_join_of_ne ht e
    rw [join_flip] at hpar
    obtain ⟨s0, e0, r0⟩ := rbRotate_rep hpar
    obtain ⟨s1, s2, s3, e1, e2, e3, r⟩ := rbRotate_gparent (e := e) (b := b) (p := p) r0.rep
    refine ⟨s3, RbTree.join e .red a u t1, ⟨e, .black, x, RbTree.join e .red b t2 w⟩, ?_, ?_, rfl, ?_,
      ?_⟩
    · rw [bind_assoc, rb_bind (rbChild_flip_eq hpar.node), if_pos rfl, bind_assoc, rb_bind e0,
        pure_bind, treePtr_join, treePtr_join, rb_bind e1, rb_bind e2, rb_bind e3]
      rfl
    · exact RbTree.join_ne_leaf
    · cases e <;> rfl
    · have hrot : rotateUp ⟨e.flip, .red, a, u⟩ ⟨e, c', b, w⟩ (RbTree.join e ct x t1 t2) =
          RbTree.join e .black x (RbTree.join e .red a u t1) (RbTree.join e .red b t2 w) := by
        cases e <;> rfl
      rw [hrot, join_flip]
      exact r0.trans r

end Turns

section Loop

variable {s : RbState} {t : RbTree RbPtr} {p : List (Frame RbPtr)}

/-- Every red frame has a frame above it: `rb_insert_color` looks past a red parent without
asking. -/
def Rooted : List (Frame RbPtr) → Prop
  | [] => True
  | f :: p => (f.color = .red → p ≠ []) ∧ Rooted p

theorem rooted_of_onPath {n : Nat} (h : OnPath n p) : Rooted p := by
  induction p generalizing n with
  | nil => trivial
  | cons f p ih =>
    obtain ⟨d, c, a, u⟩ := f
    cases c with
    | red =>
      obtain ⟨-, -, habove, hp⟩ := onPath_red.mp h
      refine ⟨fun _ hnil => ?_, ih hp⟩
      rw [hnil] at habove
      cases habove
    | black => exact ⟨nofun, ih (onPath_black.mp h).2⟩

/-- The loop ends under a black node, and at the root. -/
theorem rbInsertColorLoop_stop (h : Rep s (plug t p)) (ht : t ≠ .leaf)
    (hp : ∀ f ∈ p.head?, f.color = .black) (turns : Nat) :
    rbInsertColorLoop (turns + 1) (treePtr t) s = some ((), s) := by
  have hred : rbNonNullRed (parentPtr p) s = some (false, s) := by
    cases p with
    | nil => rfl
    | cons f p =>
      have hf : Rep s (plug (f.fill t) p) := h
      have := rbNonNullRed_rep hf
      rw [Frame.fill, treePtr_join, RbTree.color_join, hp f rfl] at this
      exact this
  rw [rbInsertColorLoop, rb_bind (rbParent_rep h ht), rb_bind hred]
  rfl

/-- Under a red node the loop takes a turn on the side the parent is on. -/
theorem rbInsertColorLoop_turn {d e : Side} {c' : Color} {a b : RbPtr} {u w : RbTree RbPtr}
    (h : Rep s (plug (RbTree.join e c' b (RbTree.join d .red a t u) w) p)) (ht : t ≠ .leaf)
    (turns : Nat) :
    rbInsertColorLoop (turns + 1) (treePtr t) s =
      (rbInsertColorTurn e (treePtr t) a b >>= rbInsertColorLoop turns) s := by
  have hg : Rep s (plug t (⟨d, .red, a, u⟩ :: ⟨e, c', b, w⟩ :: p)) := h
  have hf : Rep s (plug (RbTree.join d .red a t u) (⟨e, c', b, w⟩ :: p)) := h
  have hparent : rbParent (treePtr t) s = some (a, s) := rbParent_rep hg ht
  have hgparent := rbParent_rep hf RbTree.join_ne_leaf
  have hred := rbNonNullRed_rep hf
  rw [treePtr_join] at hgparent hred
  rw [RbTree.color_join] at hred
  obtain ⟨v, hv, hside⟩ := rbChild_side h RbTree.join_ne_leaf .left
  rw [treePtr_join] at hside
  rw [rbInsertColorLoop, rb_bind hparent, rb_bind hred, if_pos (decide_eq_true rfl),
    rb_bind hgparent, bind_assoc, parentPtr, rb_bind hv]
  cases e with
  | left => rw [if_pos (hside.mpr rfl).symm]
  | right => rw [if_neg fun e => absurd (hside.mp e.symm) (by decide)]

/-- **The loop of `rb_insert_color`** leaves the tree `insertFix` makes, but for the colour of the
root. -/
theorem rbInsertColorLoop_rep (h : Rep s (plug t p)) (ht : t ≠ .leaf) (hp : Rooted p)
    {turns : Nat} (hn : p.length / 2 < turns) :
    ∃ s' T, rbInsertColorLoop turns (treePtr t) s = some ((), s') ∧ Reshapes s (plug t p) s' T ∧
      T ≠ .leaf ∧ T.setColor .black = insertFix t p := by
  obtain ⟨turns, rfl⟩ : ∃ k, turns = k + 1 := ⟨turns - 1, by omega⟩
  induction t, p using insertFix.induct generalizing s turns with
  | case1 t =>
    exact ⟨s, t, rbInsertColorLoop_stop (p := []) h ht (by simp) turns, Reshapes.refl h, ht, rfl⟩
  | case2 t f =>
    have hf : f.color = .black := by
      cases hc : f.color with
      | red => exact absurd rfl (hp.1 hc)
      | black => rfl
    exact ⟨s, _, rbInsertColorLoop_stop h ht (by simp [hf]) turns, Reshapes.refl h,
      plug_ne_leaf ht _, rfl⟩
  | case3 t f g p hf =>
    refine ⟨s, _, rbInsertColorLoop_stop h ht (by simp [hf]) turns, Reshapes.refl h,
      plug_ne_leaf ht _, ?_⟩
    rw [insertFix, if_pos hf]
  | case4 t f g p hf hg ih =>
    obtain ⟨d, c, a, u⟩ := f
    obtain ⟨e, c', b, w⟩ := g
    obtain rfl : c = .red := by cases c <;> simp_all
    simp only [List.length_cons] at hn
    obtain ⟨turns, rfl⟩ : ∃ k, turns = k + 1 := ⟨turns - 1, by omega⟩
    obtain ⟨s1, e1, r1⟩ := rbInsertColorTurn_red h hg
    have hfill : (Frame.fill ⟨d, .red, a, u⟩ t).setColor .black = RbTree.join d .black a t u :=
      RbTree.setColor_join ..
    rw [hfill] at ih
    obtain ⟨s', T, e2, r2, hT⟩ := ih r1.rep RbTree.join_ne_leaf hp.2.2 turns (by omega)
    rw [treePtr_join] at e2
    refine ⟨s', T, ?_, r1.trans r2, hT.1, ?_⟩
    · rw [rbInsertColorLoop_turn h ht, rb_bind e1, e2]
    · rw [insertFix, if_neg hf, if_pos hg, hT.2, hfill]
  | case5 t f g p hf hg =>
    obtain ⟨d, c, a, u⟩ := f
    obtain ⟨e, c', b, w⟩ := g
    obtain rfl : c = .red := by cases c <;> simp_all
    simp only [List.length_cons] at hn
    obtain ⟨turns, rfl⟩ : ∃ k, turns = k + 1 := ⟨turns - 1, by omega⟩
    obtain ⟨s1, t', f', e1, ht', hf', hplug, r1⟩ :=
      rbInsertColorTurn_black h ht (color_eq_black hg)
    have h1 := r1.rep
    rw [← hplug] at h1
    have hstop := rbInsertColorLoop_stop h1 ht' (by simp [hf']) turns
    refine ⟨s1, _, ?_, r1, ?_, ?_⟩
    · rw [rbInsertColorLoop_turn h ht, rb_bind e1, hstop]
    · rw [← hplug]
      exact plug_ne_leaf ht' _
    · rw [insertFix, if_neg hf, if_neg hg]

/-- **`rb_insert_color` does what `insertFix` does.** It follows no `NULL` pointer, and half as many
turns as the node lies deep are enough. -/
theorem rbInsertColor_rep (h : Rep s (plug t p)) (ht : t ≠ .leaf) (hp : Rooted p) {turns : Nat}
    (hn : p.length / 2 < turns) :
    ∃ s', rbInsertColor turns (treePtr t) s = some ((), s') ∧
      Reshapes s (plug t p) s' (insertFix t p) := by
  obtain ⟨s1, T, e1, r1, hT, hfix⟩ := rbInsertColorLoop_rep h ht hp hn
  obtain ⟨s', e2, r2⟩ := rbSetBlack_root r1.rep hT
  rw [hfix] at r2
  exact ⟨s', by rw [rbInsertColor, rb_bind e1, e2], r1.trans r2⟩

end Loop

end Hurlex
