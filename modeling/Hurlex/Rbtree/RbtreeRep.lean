import Hurlex.Rbtree.Rbtree

/-!
# A red-black tree in memory

`Rep s T`: the store `s` holds the tree `T` of node addresses. Every node of `T` has in memory the
two child pointers and the packed parent and colour that `T` says, and the addresses are distinct,
not `NULL` and aligned. Nothing is said of other nodes in memory.

`Rep s (plug t p)` is read as: the place `t` of the tree, under the frames `p`. Going up a frame is
definitional, and `plug_join_flip` goes to the other child, so that what a call does to one node is
stated once, at that node, and `Keeps` says that it writes no node outside the tree.
-/

namespace Hurlex

open Lib.RedBlack

/-! ## Parent and colour in one word -/

/-- A pointer whose low bits are free for the colour. -/
def Aligned (p : RbPtr) : Prop := p &&& 3#32 = 0

/-- The word `rb_parent_color`. -/
def rbPack (p : RbPtr) (c : Color) : BitVec 32 := p ||| rbColorBit c

theorem Aligned.getLsbD {p : RbPtr} (h : Aligned p) {i : Nat} (hi : i < 2) :
    p.getLsbD i = false := by
  have := congrArg (fun v => v.getLsbD i) h
  have hi' : i = 0 ∨ i = 1 := by omega
  obtain rfl | rfl := hi' <;> simpa using this

theorem aligned_zero : Aligned 0 := rfl

theorem getLsbD_three : ∀ i < 32, (3#32).getLsbD i = decide (i < 2) := by decide

theorem getLsbD_one : ∀ i < 32, (1#32).getLsbD i = decide (i = 0) := by decide

theorem getLsbD_colorBit (c : Color) :
    ∀ i < 32, (rbColorBit c).getLsbD i = (decide (i = 0) && decide (c = .black)) := by
  cases c <;> decide

section Pack

variable {p : RbPtr}

theorem rbPack_parent (h : Aligned p) (c : Color) : rbPack p c &&& ~~~3#32 = p := by
  refine BitVec.eq_of_getLsbD_eq fun i hi => ?_
  simp only [rbPack, BitVec.getLsbD_and, BitVec.getLsbD_or, BitVec.getLsbD_not, hi,
    getLsbD_three i hi, getLsbD_colorBit c i hi]
  by_cases h2 : i < 2
  · simp only [h2, h.getLsbD h2, decide_true, Bool.not_true, Bool.and_false]
  · have h0 : i ≠ 0 := by omega
    simp only [h2, h0, decide_false, decide_true, Bool.not_false, Bool.false_and, Bool.or_false,
      Bool.and_true]

theorem rbPack_color (h : Aligned p) (c : Color) : rbPack p c &&& 1#32 = rbColorBit c := by
  refine BitVec.eq_of_getLsbD_eq fun i hi => ?_
  simp only [rbPack, BitVec.getLsbD_and, BitVec.getLsbD_or, getLsbD_one i hi,
    getLsbD_colorBit c i hi]
  by_cases h0 : i = 0
  · simp only [h0, h.getLsbD (by decide : 0 < 2), decide_true, Bool.true_and, Bool.false_or,
      Bool.and_true]
  · simp only [h0, decide_false, Bool.and_false, Bool.false_and]

/-- `rb_set_parent` keeps the colour. -/
theorem rbPack_setParent (h : Aligned p) (q : RbPtr) (c : Color) :
    (rbPack p c &&& 3#32) ||| q = rbPack q c := by
  refine BitVec.eq_of_getLsbD_eq fun i hi => ?_
  simp only [rbPack, BitVec.getLsbD_and, BitVec.getLsbD_or, getLsbD_three i hi,
    getLsbD_colorBit c i hi]
  by_cases h2 : i < 2
  · simp only [h2, h.getLsbD h2, decide_true, Bool.false_or, Bool.and_true, Bool.or_comm]
  · have h0 : i ≠ 0 := by omega
    simp only [h2, h0, decide_false, Bool.and_false, Bool.false_and, Bool.false_or, Bool.or_false]

/-- `rb_set_color` keeps the parent. -/
theorem rbPack_setColor (h : Aligned p) (c e : Color) :
    (rbPack p c &&& ~~~1#32) ||| rbColorBit e = rbPack p e := by
  refine BitVec.eq_of_getLsbD_eq fun i hi => ?_
  simp only [rbPack, BitVec.getLsbD_and, BitVec.getLsbD_or, BitVec.getLsbD_not, hi,
    getLsbD_one i hi, getLsbD_colorBit c i hi, getLsbD_colorBit e i hi]
  by_cases h0 : i = 0
  · simp only [h0, h.getLsbD (by decide : 0 < 2), decide_true, Bool.not_true, Bool.and_false]
  · simp only [h0, decide_false, decide_true, Bool.not_false, Bool.false_and, Bool.or_false,
      Bool.and_true]

theorem rbPack_setRed (h : Aligned p) (c : Color) : rbPack p c &&& ~~~1#32 = rbPack p .red := by
  have := rbPack_setColor h c .red
  rwa [show rbColorBit .red = 0#32 from rfl, BitVec.or_zero] at this

theorem rbPack_setBlack (p : RbPtr) (c : Color) : rbPack p c ||| 1#32 = rbPack p .black := by
  cases c with
  | red => simp [rbPack, rbColorBit]
  | black => simp [rbPack, rbColorBit, BitVec.or_assoc]

end Pack

/-! ## The cells of a tree -/

/-- The address of a tree: that of its root, or `NULL`. -/
def treePtr : RbTree RbPtr → RbPtr
  | .leaf => 0
  | .node _ _ a _ => a

/-- What is in memory at a node of colour `c` under `q`, with the child `x` on side `d` and the
other child `y`. -/
def rbCell (d : Side) (q : RbPtr) (c : Color) (x y : RbPtr) : RbNode :=
  match d with
  | .left => ⟨rbPack q c, y, x⟩
  | .right => ⟨rbPack q c, x, y⟩

/-- The nodes of a tree under `q` are in memory. -/
def TreeAt (s : RbState) : RbPtr → RbTree RbPtr → Prop
  | _, .leaf => True
  | q, .node c l a r =>
    s.node a = some (rbCell .left q c (treePtr l) (treePtr r)) ∧ TreeAt s a l ∧ TreeAt s a r

/-- The node over a hole, or `NULL`. -/
def parentPtr : List (Frame RbPtr) → RbPtr
  | [] => 0
  | f :: _ => f.elem

/-- The frames over a hole that holds the pointer `hole` are in memory. -/
def PathAt (s : RbState) : RbPtr → List (Frame RbPtr) → Prop
  | hole, [] => s.root = hole
  | hole, f :: p =>
    s.node f.elem = some (rbCell f.side (parentPtr p) f.color hole (treePtr f.sibling)) ∧
      TreeAt s f.elem f.sibling ∧ PathAt s f.elem p

/-- Addresses that can be nodes of one tree. -/
def Placed (as : List RbPtr) : Prop := as.Nodup ∧ ∀ a ∈ as, a ≠ 0 ∧ Aligned a

/-- **The store holds the tree.** -/
structure Rep (s : RbState) (T : RbTree RbPtr) : Prop where
  root : s.root = treePtr T
  cells : TreeAt s 0 T
  placed : Placed T.toList

/-- A store with two nodes in a tree and a third that is in none. -/
def smallStore : RbState where
  node a :=
    if a = 16 then some (rbCell .left 32 .red 0 0)
    else if a = 32 then some (rbCell .left 0 .black 16 0)
    else if a = 48 then some ⟨0, 0, 0⟩
    else none
  root := 32

def smallTree : RbTree RbPtr := .node .black (.node .red .leaf 16 .leaf) 32 .leaf

theorem smallStore_rep : Rep smallStore smallTree :=
  ⟨rfl, ⟨rfl, ⟨rfl, trivial, trivial⟩, trivial⟩, by decide, by simp [smallTree, RbTree.toList, Aligned]⟩

theorem smallTree_bal : smallTree.Bal 1 := ⟨0, rfl, ⟨⟨rfl, rfl⟩, rfl, rfl⟩, rfl⟩

/-- Only nodes of `as` were written. -/
def Keeps (as : List RbPtr) (s s' : RbState) : Prop := ∀ a ∉ as, s'.node a = s.node a

/-- The store went from holding `T` to holding `T'`, another tree of the same nodes in the same
order, and no other node was written. -/
structure Reshapes (s : RbState) (T : RbTree RbPtr) (s' : RbState) (T' : RbTree RbPtr) : Prop where
  rep : Rep s' T'
  order : T'.toList = T.toList
  keeps : Keeps T.toList s s'

section Cells

variable {s s' : RbState} {d : Side} {q hole : RbPtr} {c : Color} {a x y : RbPtr}
  {t u : RbTree RbPtr} {f : Frame RbPtr} {p : List (Frame RbPtr)} {as : List RbPtr}

@[simp] theorem treePtr_leaf : treePtr .leaf = 0 := rfl

@[simp] theorem treePtr_join : treePtr (RbTree.join d c a t u) = a := by cases d <;> rfl

@[simp] theorem treePtr_setColor : treePtr (t.setColor c) = treePtr t := by cases t <;> rfl

theorem join_flip (d : Side) (c : Color) (a : RbPtr) (t u : RbTree RbPtr) :
    RbTree.join d.flip c a t u = RbTree.join d c a u t := by cases d <;> rfl

theorem treeAt_join : TreeAt s q (RbTree.join d c a t u) ↔
    s.node a = some (rbCell d q c (treePtr t) (treePtr u)) ∧ TreeAt s a t ∧ TreeAt s a u := by
  cases d with
  | left => exact Iff.rfl
  | right =>
    show _ ∧ _ ↔ _
    rw [and_comm (a := TreeAt s a t)]
    exact Iff.rfl

/-- A tree is read off its own nodes. -/
theorem TreeAt.frame (h : TreeAt s q t) (hag : ∀ a ∈ t.toList, s'.node a = s.node a) :
    TreeAt s' q t := by
  induction t generalizing q with
  | leaf => trivial
  | node c l a r ihl ihr =>
    obtain ⟨ha, hl, hr⟩ := h
    refine ⟨?_, ihl hl fun b hb => hag b ?_, ihr hr fun b hb => hag b ?_⟩
    · rw [hag a (by simp [RbTree.toList]), ha]
    · simp [RbTree.toList, hb]
    · simp [RbTree.toList, hb]

/-- The nodes of the frames and of the trees beside them. -/
def pathNodes : List (Frame RbPtr) → List RbPtr
  | [] => []
  | f :: p => f.elem :: (f.sibling.toList ++ pathNodes p)

theorem mem_toList_join :
    x ∈ (RbTree.join d c a t u).toList ↔ x = a ∨ x ∈ t.toList ∨ x ∈ u.toList := by
  cases d <;> simp [RbTree.join, RbTree.toList] <;> tauto

theorem perm_join : (RbTree.join d c a t u).toList.Perm (a :: (t.toList ++ u.toList)) := by
  cases d with
  | left => exact List.perm_middle
  | right => exact List.perm_middle.trans (List.Perm.cons _ List.perm_append_comm)

theorem perm_plug (t : RbTree RbPtr) (p : List (Frame RbPtr)) :
    (plug t p).toList.Perm (t.toList ++ pathNodes p) := by
  induction p generalizing t with
  | nil => simp [pathNodes]
  | cons f p ih =>
    refine (ih _).trans ?_
    have h : (f.fill t).toList.Perm (f.elem :: (t.toList ++ f.sibling.toList)) := perm_join
    refine (h.append_right _).trans ?_
    have hm : (f.elem :: (t.toList ++ f.sibling.toList) ++ pathNodes p) =
        f.elem :: (t.toList ++ (f.sibling.toList ++ pathNodes p)) := by simp
    rw [hm]
    exact List.perm_middle.symm

theorem Placed.perm {bs : List RbPtr} (h : Placed as) (hp : bs.Perm as) : Placed bs :=
  ⟨hp.nodup_iff.mpr h.1, fun a ha => h.2 a (hp.mem_iff.mp ha)⟩

theorem PathAt.frame (h : PathAt s hole p) (hag : ∀ a ∈ pathNodes p, s'.node a = s.node a)
    (hroot : s'.root = s.root) : PathAt s' hole p := by
  induction p generalizing hole with
  | nil => exact hroot.trans h
  | cons f p ih =>
    obtain ⟨hf, hs, hp⟩ := h
    refine ⟨?_, hs.frame fun b hb => hag b ?_, ih hp fun b hb => hag b ?_⟩
    · rw [hag _ (by simp [pathNodes]), hf]
    · simp [pathNodes, hb]
    · simp [pathNodes, hb]

/-- **A place in the tree.** -/
theorem rep_plug : Rep s (plug t p) ↔
    TreeAt s (parentPtr p) t ∧ PathAt s (treePtr t) p ∧ Placed (t.toList ++ pathNodes p) := by
  have hkey : s.root = treePtr (plug t p) ∧ TreeAt s 0 (plug t p) ↔
      TreeAt s (parentPtr p) t ∧ PathAt s (treePtr t) p := by
    induction p generalizing t with
    | nil => exact and_comm
    | cons f p ih =>
      have hfill : treePtr (f.fill t) = f.elem := treePtr_join
      rw [plug_cons, ih, Frame.fill, treeAt_join, treePtr_join]
      show _ ↔ TreeAt s f.elem t ∧ _ ∧ _ ∧ _
      tauto
  constructor
  · rintro ⟨hr, hc, hp⟩
    obtain ⟨h1, h2⟩ := hkey.mp ⟨hr, hc⟩
    exact ⟨h1, h2, hp.perm (perm_plug t p).symm⟩
  · rintro ⟨h1, h2, hp⟩
    obtain ⟨hr, hc⟩ := hkey.mpr ⟨h1, h2⟩
    exact ⟨hr, hc, hp.perm (perm_plug t p)⟩

end Cells

end Hurlex
