import Hurlex.Lib.RedBlack

/-!
# Repairing a red-black tree

What an insertion and a removal leave to mend, and how it is mended on the way up. `insertFix t p`
starts with a red node `t` that may stand under a red one. `eraseFix t p` starts with a subtree `t`
that is one black node short. One turn of the second is `eraseStep`, about a black sibling; a red
sibling is turned into that case by a rotation first. `bottom d t p` walks down one side.
-/

namespace Hurlex.Lib.RedBlack

open RbTree

variable {α : Type}

/-! ## A red node under a red node -/

/-- The red subtree `t` under the red parent `f` under the grandparent `g`, after the rotation at
`g`, and before it one at `f` where `t` is the inner grandchild. -/
def rotateUp (f g : Frame α) (t : RbTree α) : RbTree α :=
  if f.side = g.side then
    join g.side .black f.elem t (join g.side .red g.elem f.sibling g.sibling)
  else
    match t with
    | .leaf => g.fill (f.fill .leaf)
    | .node c l a r =>
      join g.side .black a (join g.side .red f.elem f.sibling ((node c l a r).child g.side))
        (join g.side .red g.elem ((node c l a r).child g.side.flip) g.sibling)

/-- Carry the red subtree `t` up its path: recolour while the uncle is red, else rotate. -/
def insertFix (t : RbTree α) : List (Frame α) → RbTree α
  | [] => t.setColor .black
  | [f] => (plug t [f]).setColor .black
  | f :: g :: p =>
    if f.color = .black then (plug t (f :: g :: p)).setColor .black
    else if g.sibling.color = .red then
      insertFix (join g.side .red g.elem ((f.fill t).setColor .black) (g.sibling.setColor .black)) p
    else (plug (rotateUp f g t) p).setColor .black

theorem toList_rotateUp (f g : Frame α) (t : RbTree α) :
    (rotateUp f g t).toList = (g.fill (f.fill t)).toList := by
  unfold rotateUp
  split
  case isTrue hs =>
    simp only [Frame.fill, toList_join, hs]
    cases g.side <;> simp
  case isFalse hs =>
    cases t with
    | leaf => rfl
    | node c l a r =>
      simp only [Frame.fill, toList_join, Side.eq_flip_of_ne hs]
      cases g.side <;> simp [Side.flip, child, toList]

theorem toList_insertFix (t : RbTree α) (p : List (Frame α)) :
    (insertFix t p).toList = (plug t p).toList := by
  induction t, p using insertFix.induct with
  | case1 t => simp [insertFix]
  | case2 t f => simp [insertFix]
  | case3 t f g p hf => simp [insertFix, hf]
  | case4 t f g p hf hg ih =>
    rw [insertFix, if_neg hf, if_pos hg, ih]
    refine toList_plug_congr ?_ p
    simp only [Frame.fill, toList_join, toList_setColor]
  | case5 t f g p hf hg =>
    rw [insertFix, if_neg hf, if_neg hg, toList_setColor]
    exact toList_plug_congr (toList_rotateUp f g t) p

theorem color_eq_black {t : RbTree α} (h : t.color ≠ .red) : t.color = .black := by
  cases hk : t.color with
  | red => exact absurd hk h
  | black => rfl

/-- Two rotations make a balanced subtree with a black root of one that is red under red. -/
theorem bal_rotateUp {f g : Frame α} {t : RbTree α} {n : Nat} (ht : t.Bal n) (hc : t.color = .red)
    (hf : f.sibling.Bal n) (hfc : f.sibling.color = .black) (hg : g.sibling.Bal n)
    (hgc : g.sibling.color = .black) :
    (rotateUp f g t).Bal (n + 1) ∧ (rotateUp f g t).color = .black := by
  unfold rotateUp
  split
  case isTrue => simp [ht, hf, hfc, hg, hgc]
  case isFalse =>
    obtain ⟨a, u, v, rfl⟩ := exists_join_of_red hc g.side
    rw [bal_join_red] at ht
    cases hs : g.side <;> simp_all [join, child, Side.flip, Bal]

theorem color_setBlack (t : RbTree α) : (t.setColor .black).color = .black := by cases t <;> rfl

theorem OnPath.plug_setBlack {n : Nat} {p : List (Frame α)} (hp : OnPath n p) {t : RbTree α}
    (ht : t.Bal n) (hc : t.color = .black ∨ above p = .black ∨ p = []) :
    ∃ m, ((RedBlack.plug t p).setColor .black).Bal m ∧
      ((RedBlack.plug t p).setColor .black).color = .black := by
  obtain h | h | rfl := hc
  · obtain ⟨m, hm, -⟩ := hp.plug ht (.inl h)
    exact hm.setBlack
  · obtain ⟨m, hm, -⟩ := hp.plug ht (.inr h)
    exact hm.setBlack
  · exact ht.setBlack

/-- **Carrying a red node up repairs the tree.** The only flaw allowed is the node standing under
another red one. -/
theorem bal_insertFix {t : RbTree α} {p : List (Frame α)} {n : Nat} (ht : t.Bal n)
    (hc : t.color = .red) (hp : OnPath n p) :
    ∃ m, (insertFix t p).Bal m ∧ (insertFix t p).color = .black := by
  induction t, p using insertFix.induct generalizing n with
  | case1 t => exact ht.setBlack
  | case2 t f =>
    obtain ⟨d, c, a, u⟩ := f
    cases c with
    | red => cases (onPath_red.mp hp).2.2.1
    | black => exact hp.plug_setBlack ht (.inr (.inl rfl))
  | case3 t f g p hf =>
    rw [insertFix, if_pos hf]
    exact hp.plug_setBlack ht (.inr (.inl hf))
  | case4 t f g p hf hg ih =>
    rw [insertFix, if_neg hf, if_pos hg]
    obtain ⟨d, c, a, u⟩ := f
    obtain rfl : c = .red := by cases c <;> simp_all
    obtain ⟨hu, huc, hgc, hp⟩ := onPath_red.mp hp
    obtain ⟨hs, hp⟩ := hp.of_black hgc
    obtain ⟨b, v, w, hv⟩ := exists_join_of_red hg g.side
    rw [hv, bal_join_red] at hs
    refine ih ?_ (color_join ..) hp
    simp [hv, Frame.fill, ht, hu, hs]
  | case5 t f g p hf hg =>
    rw [insertFix, if_neg hf, if_neg hg]
    obtain ⟨d, c, a, u⟩ := f
    obtain rfl : c = .red := by cases c <;> simp_all
    obtain ⟨hu, huc, hgc, hp⟩ := onPath_red.mp hp
    obtain ⟨hgs, hp⟩ := hp.of_black hgc
    obtain ⟨hb, hbc⟩ := bal_rotateUp (f := ⟨d, .red, a, u⟩) ht hc hu huc hgs (color_eq_black hg)
    exact hp.plug_setBlack hb (.inl hbc)

/-! ## A missing black node -/

/-- What a turn about a sibling makes of the subtree under the parent: whole again, or still one
black node short. -/
inductive Repair (α : Type) where
  | done (t : RbTree α)
  | short (t : RbTree α)

def Repair.tree : Repair α → RbTree α
  | done t => t
  | short t => t

/-- One turn about a black sibling `s`. The subtree `t` that is short stands on side `d` of the
parent `a` of colour `c`; `near` and `far` are the children of `s`, seen from `t`. -/
def eraseStep (d : Side) (c : Color) (a : α) (t near : RbTree α) (s : α) (far : RbTree α) : Repair α :=
  if near.color = .black ∧ far.color = .black then .short (join d c a t (join d .red s near far))
  else if far.color = .red then
    .done (join d c s (join d .black a t near) (far.setColor .black))
  else
    match near with
    | .leaf => .done (join d c a t (join d .black s near far))
    | .node _ _ b _ =>
      .done (join d c b (join d .black a t (near.child d)) (join d .black s (near.child d.flip) far))

/-- Carry the missing black node of the subtree `t` up its path. -/
def eraseFix (t : RbTree α) : List (Frame α) → RbTree α
  | [] => t.setColor .black
  | f :: p =>
    if t.color = .red then plug (t.setColor .black) (f :: p)
    else
      match f.sibling with
      | .leaf => plug t (f :: p)
      | .node .black _ s _ =>
        match eraseStep f.side f.color f.elem t (f.sibling.child f.side) s
          (f.sibling.child f.side.flip) with
        | .done u => (plug u p).setColor .black
        | .short u => eraseFix u p
      | .node .red _ s _ =>
        -- the sibling goes up over the parent, which gets the sibling's near child for a sibling
        let g : Frame α := ⟨f.side, .black, s, f.sibling.child f.side.flip⟩
        match f.sibling.child f.side with
        | .leaf => plug t (f :: p)
        | .node nc nl b nr =>
          match eraseStep f.side .red f.elem t ((RbTree.node nc nl b nr).child f.side) b
            ((RbTree.node nc nl b nr).child f.side.flip) with
          | .done u => (plug u (g :: p)).setColor .black
          | .short u => plug (u.setColor .black) (g :: p)

section Step

variable {d : Side} {c : Color} {a b s : α} {t near far n₁ n₂ : RbTree α}

theorem eraseStep_of_black (hn : near.color = .black) (hf : far.color = .black) :
    eraseStep d c a t near s far = .short (join d c a t (join d .red s near far)) :=
  if_pos ⟨hn, hf⟩

theorem eraseStep_of_far (hf : far.color = .red) :
    eraseStep d c a t near s far =
      .done (join d c s (join d .black a t near) (far.setColor .black)) := by
  unfold eraseStep
  rw [if_neg (by simp [hf]), if_pos hf]

theorem eraseStep_of_near (hf : far.color ≠ .red) :
    eraseStep d c a t (join d .red b n₁ n₂) s far =
      .done (join d c b (join d .black a t n₁) (join d .black s n₂ far)) := by
  unfold eraseStep
  rw [if_neg (by simp), if_neg hf]
  cases d <;> rfl

end Step

section Turns

variable {d : Side} {c : Color} {a b x : α} {t u near far n₁ n₂ : RbTree α} {p : List (Frame α)}
  {n : Nat}

/-! ### One turn about a black sibling -/

theorem eraseFix_done (hc : t.color ≠ .red) (h : eraseStep d c a t near x far = .done u) :
    eraseFix t (⟨d, c, a, join d .black x near far⟩ :: p) = (plug u p).setColor .black := by
  unfold eraseFix
  rw [if_neg hc]
  cases d <;> simp_all [join, child, Side.flip]

theorem eraseFix_short (hc : t.color ≠ .red) (h : eraseStep d c a t near x far = .short u) :
    eraseFix t (⟨d, c, a, join d .black x near far⟩ :: p) = eraseFix u p := by
  conv_lhs => unfold eraseFix
  rw [if_neg hc]
  cases d <;> simp_all [join, child, Side.flip]

/-! ### One turn about a red sibling -/

theorem eraseFix_red_done (hc : t.color ≠ .red) (h : eraseStep d .red a t n₁ b n₂ = .done u) :
    eraseFix t (⟨d, c, a, join d .red x (join d .black b n₁ n₂) far⟩ :: p) =
      (plug u (⟨d, .black, x, far⟩ :: p)).setColor .black := by
  unfold eraseFix
  rw [if_neg hc]
  cases d <;> simp_all [join, child, Side.flip]

theorem eraseFix_red_short (hc : t.color ≠ .red) (h : eraseStep d .red a t n₁ b n₂ = .short u) :
    eraseFix t (⟨d, c, a, join d .red x (join d .black b n₁ n₂) far⟩ :: p) =
      plug (u.setColor .black) (⟨d, .black, x, far⟩ :: p) := by
  unfold eraseFix
  rw [if_neg hc]
  cases d <;> simp_all [join, child, Side.flip]

/-- Beside a place with black nodes below it stands a black node, or a red one with black
children. -/
theorem OnPath.sibling (hp : OnPath (n + 1) (⟨d, c, a, u⟩ :: p)) :
    (∃ x near far, u = join d .black x near far ∧ near.Bal n ∧ far.Bal n) ∨
    (c = .black ∧ ∃ x b n₁ n₂ far, u = join d .red x (join d .black b n₁ n₂) far ∧
      n₁.Bal n ∧ n₂.Bal n ∧ far.Bal (n + 1)) := by
  obtain ⟨hu, hrest⟩ := hp
  cases hc : u.color with
  | black =>
    obtain ⟨x, near, far, rfl, h⟩ := hu.exists_join hc d
    exact .inl ⟨x, near, far, rfl, h⟩
  | red =>
    obtain ⟨x, near, far, rfl⟩ := exists_join_of_red hc d
    obtain ⟨⟨hnc, hn⟩, -, hf⟩ := bal_join_red.mp hu
    obtain ⟨b, n₁, n₂, rfl, h1, h2⟩ := hn.exists_join hnc d
    refine .inr ⟨?_, x, b, n₁, n₂, far, rfl, h1, h2, hf⟩
    cases c with
    | black => rfl
    | red => cases hc.symm.trans hrest.1

/-- What a turn gives: the parent's place keeps its colour, with whole subtrees under it, or the
sibling is red and the parent's place is one black node short. -/
theorem eraseStep_spec (d : Side) (c : Color) (a x : α) (ht : t.Bal n) (hn : near.Bal n)
    (hf : far.Bal n) :
    (∃ b v w, eraseStep d c a t near x far = .done (join d c b v w) ∧
      (v.color = .black ∧ v.Bal (n + 1)) ∧ (w.color = .black ∧ w.Bal (n + 1))) ∨
    ∃ w, eraseStep d c a t near x far = .short (join d c a t w) ∧ w.Bal n := by
  by_cases hfc : far.color = .red
  · obtain ⟨b, v, w, rfl⟩ := exists_join_of_red hfc d
    rw [bal_join_red] at hf
    exact .inl ⟨_, _, _, eraseStep_of_far hfc, by simp [ht, hn], by simp [hf]⟩
  have hfb := color_eq_black hfc
  cases hnc : near.color with
  | black => exact .inr ⟨_, eraseStep_of_black hnc hfb, by simp [hnc, hfb, hn, hf]⟩
  | red =>
    obtain ⟨b, n₁, n₂, rfl⟩ := exists_join_of_red hnc d
    rw [bal_join_red] at hn
    exact .inl ⟨_, _, _, eraseStep_of_near hfc, by simp [ht, hn], by simp [hn, hf]⟩

/-- A subtree that is one black node short of `n + 1`: blackening its red root makes it whole. -/
def Short (t : RbTree α) (n : Nat) : Prop :=
  (t.color = .black → t.Bal n) ∧ (t.color = .red → (t.setColor .black).Bal (n + 1))

theorem Bal.short (h : t.Bal n) : Short t n := by
  refine ⟨fun _ => h, fun hc => ?_⟩
  obtain ⟨a, u, v, rfl⟩ := exists_join_of_red hc .left
  rw [bal_join_red] at h
  simp [h]

/-- What is still short after a turn can be carried on from the parent. -/
theorem short_join {w : RbTree α} (ht : t.Bal n) (hw : w.Bal n)
    (hp : OnPath (n + 1) (⟨d, c, a, u⟩ :: p)) :
    ∃ m, Short (join d c a t w) m ∧ OnPath (m + 1) p := by
  cases c with
  | red =>
    refine ⟨n, ⟨fun h => ?_, fun _ => ?_⟩, (onPath_red.mp hp).2.2.2⟩
    · simp at h
    · simp [ht, hw]
  | black => exact ⟨n + 1, Bal.short (bal_join_black.mpr ⟨ht, hw⟩), (onPath_black.mp hp).2⟩

/-- **Carrying a missing black node up repairs the tree.** -/
theorem bal_eraseFix (ht : Short t n) (hp : OnPath (n + 1) p) :
    ∃ m, (eraseFix t p).Bal m ∧ (eraseFix t p).color = .black := by
  induction p generalizing t n with
  | nil =>
    unfold eraseFix
    cases hc : t.color with
    | red => exact ⟨n + 1, ht.2 hc, color_setBlack t⟩
    | black => exact (ht.1 hc).setBlack
  | cons f p ih =>
    by_cases hc : t.color = .red
    · rw [eraseFix, if_pos hc]
      exact hp.plug (ht.2 hc) (.inl (color_setBlack t))
    have htb := ht.1 (color_eq_black hc)
    obtain ⟨d, c, a, u⟩ := f
    obtain ⟨x, near, far, rfl, hn, hf⟩ | ⟨rfl, x, b, n₁, n₂, far, rfl, h1, h2, hf⟩ := hp.sibling
    · obtain ⟨b, v, w, hE, hv, hw⟩ | ⟨w, hE, hw⟩ := eraseStep_spec d c a x htb hn hf
      · rw [eraseFix_done hc hE]
        cases c with
        | red =>
          obtain ⟨-, -, habove, hp⟩ := onPath_red.mp hp
          exact hp.plug_setBlack (bal_join_red.mpr ⟨hv, hw⟩) (.inr (.inl habove))
        | black =>
          exact (onPath_black.mp hp).2.plug_setBlack (bal_join_black.mpr ⟨hv.2, hw.2⟩)
            (.inl (color_join ..))
      · rw [eraseFix_short hc hE]
        obtain ⟨m, hs, hp⟩ := short_join htb hw hp
        exact ih hs hp
    · have hg : OnPath (n + 1) (⟨d, .black, x, far⟩ :: p) :=
        onPath_black.mpr ⟨hf, (onPath_black.mp hp).2⟩
      obtain ⟨b', v, w, hE, hv, hw⟩ | ⟨w, hE, hw⟩ := eraseStep_spec d .red a b htb h1 h2
      · rw [eraseFix_red_done hc hE]
        exact hg.plug_setBlack (bal_join_red.mpr ⟨hv, hw⟩) (.inr (.inl rfl))
      · rw [eraseFix_red_short hc hE]
        refine hg.plug ?_ (.inl (color_setBlack _))
        rw [setColor_join, bal_join_black]
        exact ⟨htb, hw⟩

end Turns

end Hurlex.Lib.RedBlack
