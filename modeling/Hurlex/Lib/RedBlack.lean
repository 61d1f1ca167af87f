import Mathlib.Algebra.Group.Nat.Defs
import Mathlib.Data.Nat.Log
import Mathlib.Data.List.Nodup

/-!
# Red-black trees and the path to a node

`RbTree α` is a binary tree with a colour at every node. A place in a tree is a subtree together
with the frames above it, innermost first (`plug` puts the subtree back). Left and right are
exchanged by a `Side`: `join d c a t u` has `t` as its child on side `d`, so that what holds of one
hand is proved for both.

* `RbTree.Bal t n`: no red node has a red child, and every way down passes `n` black nodes. A tree of
  that kind is at most `2 * log₂ (size + 1)` high (`height_le_log`).
* `OnPath n p`: the frames `p` leave a hole for a subtree of black height `n`. `OnPath.plug` and
  `OnPath.of_plug` go from one to the other.
* `insertFix t p` carries a red node up from where it was put in, `eraseFix t p` a missing black
  node from where one was taken out. Both give a balanced tree back (`bal_insertFix`, `bal_eraseFix`).
-/

namespace Hurlex.Lib.RedBlack

inductive Color where
  | red
  | black
  deriving DecidableEq, Repr

/-- The two hands of a node. -/
inductive Side where
  | left
  | right
  deriving DecidableEq, Repr

def Side.flip : Side → Side
  | .left => .right
  | .right => .left

@[simp] theorem Side.flip_flip (d : Side) : d.flip.flip = d := by cases d <;> rfl

@[simp] theorem Side.flip_ne (d : Side) : d.flip ≠ d := by cases d <;> simp [Side.flip]

@[simp] theorem Side.ne_flip (d : Side) : d ≠ d.flip := by cases d <;> simp [Side.flip]

theorem Side.eq_flip_of_ne {d e : Side} (h : e ≠ d) : e = d.flip := by
  cases d <;> cases e <;> simp_all [Side.flip]

inductive RbTree (α : Type) where
  | leaf
  | node (c : Color) (l : RbTree α) (a : α) (r : RbTree α)
  deriving DecidableEq, Repr

/-- A node above a hole: the side the hole is on, the node's colour and element, and its other
subtree. -/
structure Frame (α : Type) where
  side : Side
  color : Color
  elem : α
  sibling : RbTree α

variable {α : Type}

namespace RbTree

/-- The colour of the root. A leaf counts as black. -/
def color : RbTree α → Color
  | leaf => .black
  | node c _ _ _ => c

def setColor (c : Color) : RbTree α → RbTree α
  | leaf => leaf
  | node _ l a r => node c l a r

/-- The elements from left to right. -/
def toList : RbTree α → List α
  | leaf => []
  | node _ l a r => l.toList ++ a :: r.toList

def height : RbTree α → Nat
  | leaf => 0
  | node _ l _ r => max l.height r.height + 1

def child : Side → RbTree α → RbTree α
  | _, leaf => leaf
  | .left, node _ l _ _ => l
  | .right, node _ _ _ r => r

/-- The node with `t` as its child on side `d` and `u` as the other one. -/
def join (d : Side) (c : Color) (a : α) (t u : RbTree α) : RbTree α :=
  match d with
  | .left => node c t a u
  | .right => node c u a t

/-- No red node has a red child, and every way down passes `n` black nodes. -/
def Bal : RbTree α → Nat → Prop
  | leaf, n => n = 0
  | node .red l _ r, n => (l.color = .black ∧ l.Bal n) ∧ (r.color = .black ∧ r.Bal n)
  | node .black l _ r, n => ∃ m, n = m + 1 ∧ l.Bal m ∧ r.Bal m

@[simp] theorem color_leaf : (leaf : RbTree α).color = .black := rfl

@[simp] theorem color_node (c : Color) (l : RbTree α) (a : α) (r : RbTree α) :
    (node c l a r).color = c := rfl

@[simp] theorem color_join (d : Side) (c : Color) (a : α) (t u : RbTree α) :
    (join d c a t u).color = c := by cases d <;> rfl

@[simp] theorem setColor_join (d : Side) (c e : Color) (a : α) (t u : RbTree α) :
    (join d c a t u).setColor e = join d e a t u := by cases d <;> rfl

@[simp] theorem child_join (d : Side) (c : Color) (a : α) (t u : RbTree α) :
    (join d c a t u).child d = t := by cases d <;> rfl

@[simp] theorem child_flip_join (d : Side) (c : Color) (a : α) (t u : RbTree α) :
    (join d c a t u).child d.flip = u := by cases d <;> rfl

/-- Every node is a join, seen from either side. -/
theorem node_eq_join (d : Side) (c : Color) (l : RbTree α) (a : α) (r : RbTree α) :
    node c l a r = join d c a ((node c l a r).child d) ((node c l a r).child d.flip) := by
  cases d <;> rfl

@[simp] theorem join_ne_leaf {d : Side} {c : Color} {a : α} {t u : RbTree α} :
    join d c a t u ≠ leaf := by cases d <;> simp [join]

theorem exists_join_of_ne {t : RbTree α} (h : t ≠ leaf) (d : Side) :
    ∃ c a u v, t = join d c a u v := by
  cases t with
  | leaf => exact absurd rfl h
  | node c l a r => exact ⟨c, a, _, _, node_eq_join d c l a r⟩

theorem exists_join_of_red {t : RbTree α} (h : t.color = .red) (d : Side) :
    ∃ a u v, t = join d .red a u v := by
  cases t with
  | leaf => cases h
  | node c l a r =>
    obtain rfl : c = .red := h
    exact ⟨a, _, _, node_eq_join d _ l a r⟩

@[simp] theorem toList_setColor (c : Color) (t : RbTree α) : (t.setColor c).toList = t.toList := by
  cases t <;> rfl

theorem toList_join (d : Side) (c : Color) (a : α) (t u : RbTree α) :
    (join d c a t u).toList =
      match d with
      | .left => t.toList ++ a :: u.toList
      | .right => u.toList ++ a :: t.toList := by
  cases d <;> rfl

/-- A rotation keeps the order. -/
theorem toList_rotate (d : Side) (c e : Color) (a b : α) (x y z : RbTree α) :
    (join d e b (join d c a x y) z).toList = (join d c a x (join d e b y z)).toList := by
  cases d <;> simp [toList_join]

/-! ### Balance, side by side -/

@[simp] theorem bal_leaf {n : Nat} : (leaf : RbTree α).Bal n ↔ n = 0 := Iff.rfl

@[simp] theorem bal_join_red {d : Side} {a : α} {t u : RbTree α} {n : Nat} :
    (join d .red a t u).Bal n ↔
      (t.color = .black ∧ t.Bal n) ∧ (u.color = .black ∧ u.Bal n) := by
  cases d
  · exact Iff.rfl
  · exact and_comm

@[simp] theorem bal_join_black {d : Side} {a : α} {t u : RbTree α} {n : Nat} :
    (join d .black a t u).Bal (n + 1) ↔ t.Bal n ∧ u.Bal n := by
  cases d <;> simp [join, Bal, and_comm]

/-- A node that is not a leaf has some black height left below a black root. -/
theorem Bal.exists_join {t : RbTree α} {n : Nat} (h : t.Bal (n + 1)) (hc : t.color = .black)
    (d : Side) : ∃ a u v, t = join d .black a u v ∧ u.Bal n ∧ v.Bal n := by
  cases t with
  | leaf => simp at h
  | node c l a r =>
    obtain rfl : c = .black := hc
    rw [node_eq_join d, bal_join_black] at h
    exact ⟨a, _, _, node_eq_join d _ l a r, h⟩

theorem Bal.setBlack {t : RbTree α} {n : Nat} (h : t.Bal n) :
    ∃ m, (t.setColor .black).Bal m ∧ (t.setColor .black).color = .black := by
  cases t with
  | leaf => exact ⟨0, rfl, rfl⟩
  | node c l a r =>
    cases c with
    | red => exact ⟨n + 1, ⟨n, rfl, h.1.2, h.2.2⟩, rfl⟩
    | black => exact ⟨n, h, rfl⟩

/-! ### Height -/

theorem Bal.pow_le {t : RbTree α} {n : Nat} (h : t.Bal n) : 2 ^ n ≤ t.toList.length + 1 := by
  induction t generalizing n with
  | leaf =>
    obtain rfl : n = 0 := h
    simp
  | node c l a r ihl ihr =>
    cases c with
    | red =>
      have := ihl h.1.2
      simp only [toList, List.length_append, List.length_cons]
      omega
    | black =>
      obtain ⟨m, rfl, hl, hr⟩ := h
      have h1 := ihl hl
      have h2 := ihr hr
      simp only [toList, List.length_append, List.length_cons, Nat.pow_succ]
      omega

theorem Bal.height_le {t : RbTree α} {n : Nat} (h : t.Bal n) :
    t.height ≤ 2 * n + (if t.color = .red then 1 else 0) := by
  induction t generalizing n with
  | leaf => simp [height]
  | node c l a r ihl ihr =>
    cases c with
    | red =>
      have h1 := ihl h.1.2
      have h2 := ihr h.2.2
      simp only [h.1.1, h.2.1] at h1 h2
      simp only [height, color_node, if_true]
      simp at h1 h2
      omega
    | black =>
      obtain ⟨m, rfl, hl, hr⟩ := h
      have h1 := ihl hl
      have h2 := ihr hr
      simp only [height, color_node]
      split at h1 <;> split at h2 <;> simp <;> omega

/-- **A balanced tree with a black root is at most twice the logarithm of its size high.** -/
theorem Bal.height_le_log {t : RbTree α} {n : Nat} (h : t.Bal n) (hc : t.color = .black) :
    t.height ≤ 2 * Nat.log 2 (t.toList.length + 1) := by
  have hh := h.height_le
  have hn : n ≤ Nat.log 2 (t.toList.length + 1) :=
    Nat.le_log_of_pow_le (by omega) h.pow_le
  simp [hc] at hh
  omega

end RbTree

open RbTree

/-! ## Frames -/

/-- The subtree `t` put back under its frame. -/
def Frame.fill (f : Frame α) (t : RbTree α) : RbTree α := join f.side f.color f.elem t f.sibling

/-- The subtree `t` put back under all its frames, the innermost first. -/
def plug (t : RbTree α) : List (Frame α) → RbTree α
  | [] => t
  | f :: p => plug (f.fill t) p

/-- The elements before the hole. -/
def before : List (Frame α) → List α
  | [] => []
  | f :: p =>
    match f.side with
    | .left => before p
    | .right => before p ++ (f.sibling.toList ++ [f.elem])

/-- The elements after the hole. -/
def after : List (Frame α) → List α
  | [] => []
  | f :: p =>
    match f.side with
    | .left => f.elem :: f.sibling.toList ++ after p
    | .right => after p

/-- The colour over the hole. The place of the root counts as red: no red node may stand there. -/
def above : List (Frame α) → Color
  | [] => .red
  | f :: _ => f.color

/-- The frames are those of a balanced tree with a black root and leave a hole of black height
`n`. -/
def OnPath : Nat → List (Frame α) → Prop
  | _, [] => True
  | n, f :: p =>
    f.sibling.Bal n ∧
      match f.color with
      | .red => f.sibling.color = .black ∧ above p = .black ∧ OnPath n p
      | .black => OnPath (n + 1) p

@[simp] theorem plug_nil (t : RbTree α) : plug t [] = t := rfl

@[simp] theorem plug_cons (t : RbTree α) (f : Frame α) (p : List (Frame α)) :
    plug t (f :: p) = plug (f.fill t) p := rfl

theorem plug_ne_leaf {t : RbTree α} (h : t ≠ leaf) (p : List (Frame α)) : plug t p ≠ leaf := by
  induction p generalizing t with
  | nil => exact h
  | cons f p ih => exact ih join_ne_leaf

theorem plug_append (t : RbTree α) (p q : List (Frame α)) : plug t (p ++ q) = plug (plug t p) q := by
  induction p generalizing t with
  | nil => rfl
  | cons f p ih => exact ih _

theorem before_append (q p : List (Frame α)) : before (q ++ p) = before p ++ before q := by
  induction q with
  | nil => rw [before, List.append_nil, List.nil_append]
  | cons f q ih =>
    rw [List.cons_append, before, before, ih]
    cases f.side <;> simp

theorem after_append (q p : List (Frame α)) : after (q ++ p) = after q ++ after p := by
  induction q with
  | nil => rfl
  | cons f q ih =>
    rw [List.cons_append, after, after, ih]
    cases f.side <;> simp

theorem toList_plug (t : RbTree α) (p : List (Frame α)) :
    (plug t p).toList = before p ++ (t.toList ++ after p) := by
  induction p generalizing t with
  | nil => simp [before, after]
  | cons f p ih =>
    rw [plug_cons, ih, Frame.fill, toList_join, before, after]
    cases f.side <;> simp

/-- What is plugged in matters to the order of the elements only by its own order. -/
theorem toList_plug_congr {t u : RbTree α} (h : t.toList = u.toList) (p : List (Frame α)) :
    (plug t p).toList = (plug u p).toList := by
  rw [toList_plug, toList_plug, h]

theorem OnPath.of_black {n : Nat} {f : Frame α} {p : List (Frame α)} (h : OnPath n (f :: p))
    (hc : f.color = .black) : f.sibling.Bal n ∧ OnPath (n + 1) p := by
  have h2 := h.2
  rw [hc] at h2
  exact ⟨h.1, h2⟩

theorem onPath_red {n : Nat} {d : Side} {a : α} {u : RbTree α} {p : List (Frame α)} :
    OnPath n (⟨d, .red, a, u⟩ :: p) ↔
      u.Bal n ∧ u.color = .black ∧ above p = .black ∧ OnPath n p := Iff.rfl

theorem onPath_black {n : Nat} {d : Side} {a : α} {u : RbTree α} {p : List (Frame α)} :
    OnPath n (⟨d, .black, a, u⟩ :: p) ↔ u.Bal n ∧ OnPath (n + 1) p := Iff.rfl

/-- **Filling the hole** with a subtree of its black height, red only under a black node. -/
theorem OnPath.plug {n : Nat} {p : List (Frame α)} (hp : OnPath n p) {t : RbTree α} (ht : t.Bal n)
    (hc : t.color = .black ∨ above p = .black) :
    ∃ m, (plug t p).Bal m ∧ (RedBlack.plug t p).color = .black := by
  induction p generalizing t n with
  | nil => exact ⟨n, ht, hc.resolve_right (by simp [above])⟩
  | cons f p ih =>
    obtain ⟨d, c, a, u⟩ := f
    cases c with
    | red =>
      obtain ⟨hu, huc, habove, hp⟩ := onPath_red.mp hp
      have htc : t.color = .black := hc.resolve_right (by simp [above])
      exact ih hp (bal_join_red.mpr ⟨⟨htc, ht⟩, huc, hu⟩) (.inr habove)
    | black =>
      obtain ⟨hu, hp⟩ := onPath_black.mp hp
      exact ih hp (bal_join_black.mpr ⟨ht, hu⟩) (.inl (color_join ..))

/-- Every place in a balanced tree is a balanced subtree and a path that leaves room for it. -/
theorem OnPath.of_plug {t : RbTree α} {p : List (Frame α)} {m : Nat} (h : (RedBlack.plug t p).Bal m)
    (hc : (RedBlack.plug t p).color = .black) :
    ∃ n, t.Bal n ∧ OnPath n p ∧ (t.color = .black ∨ above p = .black) := by
  induction p generalizing t with
  | nil => exact ⟨m, h, trivial, .inl hc⟩
  | cons f p ih =>
    obtain ⟨d, c, a, u⟩ := f
    obtain ⟨n, hn, hp, hab⟩ := ih h hc
    cases c with
    | red =>
      obtain ⟨⟨htc, ht⟩, huc, hu⟩ := bal_join_red.mp hn
      have habove : above p = .black := hab.resolve_left (by simp [Frame.fill])
      exact ⟨n, ht, onPath_red.mpr ⟨hu, huc, habove, hp⟩, .inl htc⟩
    | black =>
      cases n with
      | zero => exact absurd hn (by cases d <;> simp [Frame.fill, join, Bal])
      | succ n =>
        obtain ⟨ht, hu⟩ := bal_join_black.mp hn
        exact ⟨n, ht, onPath_black.mpr ⟨hu, hp⟩, .inr rfl⟩

/-- A path does not depend on the elements of its nodes. -/
theorem onPath_elem {n : Nat} {d : Side} {c : Color} {a b : α} {u : RbTree α}
    {p q : List (Frame α)} (h : OnPath n (q ++ ⟨d, c, a, u⟩ :: p)) :
    OnPath n (q ++ ⟨d, c, b, u⟩ :: p) := by
  have habove : ∀ q : List (Frame α),
      above (q ++ ⟨d, c, a, u⟩ :: p) = above (q ++ ⟨d, c, b, u⟩ :: p) := fun q => by
    cases q <;> rfl
  induction q generalizing n with
  | nil => exact h
  | cons f q ih =>
    obtain ⟨e, c', x, v⟩ := f
    cases c' with
    | red =>
      obtain ⟨hv, hvc, hab, hp⟩ := onPath_red.mp h
      exact onPath_red.mpr ⟨hv, hvc, habove q ▸ hab, ih hp⟩
    | black =>
      obtain ⟨hv, hp⟩ := onPath_black.mp h
      exact onPath_black.mpr ⟨hv, ih hp⟩

/-- Every element has its place. -/
theorem exists_plug_of_mem {a : α} {t : RbTree α} (h : a ∈ t.toList) :
    ∃ c l r p, t = plug (node c l a r) p := by
  induction t with
  | leaf => cases h
  | node c l b r ihl ihr =>
    simp only [toList, List.mem_append, List.mem_cons] at h
    obtain h | rfl | h := h
    · obtain ⟨c', l', r', p, rfl⟩ := ihl h
      exact ⟨c', l', r', p ++ [⟨.left, c, b, r⟩], by rw [plug_append]; rfl⟩
    · exact ⟨c, l, r, [], rfl⟩
    · obtain ⟨c', l', r', p, rfl⟩ := ihr h
      exact ⟨c', l', r', p ++ [⟨.right, c, b, l⟩], by rw [plug_append]; rfl⟩

/-- A place lies no deeper than the tree is high. -/
theorem height_plug (t : RbTree α) (p : List (Frame α)) :
    t.height + p.length ≤ (plug t p).height := by
  induction p generalizing t with
  | nil => exact Nat.le_refl _
  | cons f p ih =>
    have hfill : t.height + 1 ≤ (f.fill t).height := by
      rw [Frame.fill]
      cases f.side <;> simp only [join, height] <;> omega
    have := ih (f.fill t)
    rw [List.length_cons, plug_cons]
    omega

/-- On a path down the left side nothing comes before the hole. -/
theorem before_left {p : List (Frame α)} (h : ∀ f ∈ p, f.side = .left) : before p = [] := by
  induction p with
  | nil => rfl
  | cons f p ih =>
    rw [before, h f List.mem_cons_self, ih fun g hg => h g (List.mem_cons_of_mem _ hg)]

/-- On a path down the right side nothing comes after the hole. -/
theorem after_right {p : List (Frame α)} (h : ∀ f ∈ p, f.side = .right) : after p = [] := by
  induction p with
  | nil => rfl
  | cons f p ih =>
    rw [after, h f List.mem_cons_self, ih fun g hg => h g (List.mem_cons_of_mem _ hg)]

end Hurlex.Lib.RedBlack
