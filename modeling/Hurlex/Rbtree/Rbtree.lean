import Hurlex.Lib.RedBlack
import Mathlib.Data.BitVec

/-!
# The kernel's red-black tree (`lib/rbtree.c`, `include/lib/rbtree.h`)

A `struct rb_node` lies in the object it links. It has two child pointers and one word for the
parent pointer with the colour in bit 0. Memory is a partial map from addresses to nodes, and a
read or write where there is no node has no result: that is what a call does that follows a `NULL`
pointer. Loops take a bound on their turns and have no result either when it is used up.

The C text writes most of the algorithm twice, for the left and for the right hand. Where the two
texts are mirror images they are one definition here, with the side as a parameter.
-/

namespace Hurlex

open Lib.RedBlack

/-- `struct rb_node *`, and the `unsigned long` it shares its word with. -/
abbrev RbPtr := BitVec 32

/-- `struct rb_node`. -/
structure RbNode where
  rbParentColor : BitVec 32
  rbRight : RbPtr
  rbLeft : RbPtr
  deriving DecidableEq, Repr

/-- `rb_left` or `rb_right`. -/
def RbNode.child (n : RbNode) : Side → RbPtr
  | .left => n.rbLeft
  | .right => n.rbRight

def RbNode.setChild (n : RbNode) (d : Side) (v : RbPtr) : RbNode :=
  match d with
  | .left => { n with rbLeft := v }
  | .right => { n with rbRight := v }

/-- The nodes in memory and the `rb_node` word of one `struct rb_root`. -/
structure RbState where
  node : RbPtr → Option RbNode
  root : RbPtr

/-- The store after node `a` was written. -/
def RbState.put (s : RbState) (a : RbPtr) (n : RbNode) : RbState :=
  { s with node := Function.update s.node a (some n) }

/-- A call that reads and writes the store. -/
abbrev RbM := StateT RbState Option

def rbLoad (a : RbPtr) : RbM RbNode := fun s => (s.node a).map fun n => (n, s)

def rbModify (a : RbPtr) (f : RbNode → RbNode) : RbM Unit := fun s =>
  (s.node a).map fun n => ((), s.put a (f n))

/-- `root->rb_node`. -/
def rbRoot : RbM RbPtr := fun s => some (s.root, s)

/-- `root->rb_node = v`. -/
def rbSetRoot (v : RbPtr) : RbM Unit := fun s => some ((), { s with root := v })

/-- `r->rb_left`, `r->rb_right`. -/
def rbChild (d : Side) (r : RbPtr) : RbM RbPtr := do
  let n ← rbLoad r
  return n.child d

/-- `r->rb_left = v`, `r->rb_right = v`. -/
def rbSetChild (d : Side) (r v : RbPtr) : RbM Unit := rbModify r fun n => n.setChild d v

/-! ## `rbtree.h` -/

/-- `RB_RED`, `RB_BLACK`. -/
def rbColorBit : Color → BitVec 32
  | .red => 0
  | .black => 1

/-- `rb_parent`. -/
def rbParent (r : RbPtr) : RbM RbPtr := do
  let n ← rbLoad r
  return n.rbParentColor &&& ~~~3#32

/-- `rb_color`. -/
def rbColor (r : RbPtr) : RbM (BitVec 32) := do
  let n ← rbLoad r
  return n.rbParentColor &&& 1#32

/-- `rb_is_red`. -/
def rbIsRed (r : RbPtr) : RbM Bool := do
  let c ← rbColor r
  return c == 0

/-- `rb_is_black`. -/
def rbIsBlack (r : RbPtr) : RbM Bool := do
  let c ← rbColor r
  return c != 0

/-- `rb_set_red`. -/
def rbSetRed (r : RbPtr) : RbM Unit :=
  rbModify r fun n => { n with rbParentColor := n.rbParentColor &&& ~~~1#32 }

/-- `rb_set_black`. -/
def rbSetBlack (r : RbPtr) : RbM Unit :=
  rbModify r fun n => { n with rbParentColor := n.rbParentColor ||| 1#32 }

/-- `rb_set_parent`. -/
def rbSetParent (r p : RbPtr) : RbM Unit :=
  rbModify r fun n => { n with rbParentColor := (n.rbParentColor &&& 3#32) ||| p }

/-- `rb_set_color`. -/
def rbSetColor (r : RbPtr) (color : BitVec 32) : RbM Unit :=
  rbModify r fun n => { n with rbParentColor := (n.rbParentColor &&& ~~~1#32) ||| color }

/-- `RB_ROOT`, with the nodes that are in memory. -/
def rbRootInit (node : RbPtr → Option RbNode) : RbState := ⟨node, 0⟩

/-- A `struct rb_node **`: where a pointer to a node is kept. -/
inductive RbLink where
  | root
  | child (r : RbPtr) (d : Side)
  deriving DecidableEq, Repr

/-- `*rb_link`. -/
def rbFollow : RbLink → RbM RbPtr
  | .root => rbRoot
  | .child r d => rbChild d r

/-- `*rb_link = v`. -/
def rbSetLink (l : RbLink) (v : RbPtr) : RbM Unit :=
  match l with
  | .root => rbSetRoot v
  | .child r d => rbSetChild d r v

/-- `rb_link_node`. -/
def rbLinkNode (node parent : RbPtr) (rbLink : RbLink) : RbM Unit := do
  rbModify node fun n => { n with rbParentColor := parent }
  rbModify node fun n => { n with rbLeft := 0, rbRight := 0 }
  rbSetLink rbLink node

/-- `p && rb_is_red(p)`. -/
def rbNonNullRed (p : RbPtr) : RbM Bool := if p ≠ 0 then rbIsRed p else return false

/-- `!p || rb_is_black(p)`. -/
def rbNullOrBlack (p : RbPtr) : RbM Bool := if p = 0 then return true else rbIsBlack p

/-- `if (p) rb_set_parent(p, v)`. -/
def rbSetParentIf (p v : RbPtr) : RbM Unit := if p ≠ 0 then rbSetParent p v else return ()

/-! ## Rotations -/

/-- `if (parent) … else root->rb_node = new`: the pointer down to `old` now goes to `new`. The `d`
is the hand the text asks about first. -/
def rbRelink (d : Side) (parent old new : RbPtr) : RbM Unit := do
  if parent ≠ 0 then
    if (← rbChild d parent) = old then rbSetChild d parent new
    else rbSetChild d.flip parent new
  else
    rbSetRoot new

/-- `__rb_rotate_left` on side `left`, and the same text with the hands exchanged. -/
def rbRotate (d : Side) (node : RbPtr) : RbM Unit := do
  let right ← rbChild d.flip node
  let parent ← rbParent node
  -- the test is on the value stored, which is again `right->rb_left`
  rbSetChild d.flip node (← rbChild d right)
  rbSetParentIf (← rbChild d right) node
  rbSetChild d right node
  rbSetParent right parent
  rbRelink d parent node right
  rbSetParent node right

/-- `__rb_rotate_left`. -/
def rbRotateLeft : RbPtr → RbM Unit := rbRotate .left

/-- `__rb_rotate_right`. -/
def rbRotateRight : RbPtr → RbM Unit := rbRotate .right

/-! ## `rb_insert_color` -/

/-- One turn of the loop of `rb_insert_color`, where `parent` is the child of `gparent` on side `d`:
the node the next turn starts from. -/
def rbInsertColorTurn (d : Side) (node parent gparent : RbPtr) : RbM RbPtr := do
  let uncle ← rbChild d.flip gparent
  if ← rbNonNullRed uncle then
    rbSetBlack uncle
    rbSetBlack parent
    rbSetRed gparent
    return gparent
  else
    let (node, parent) ← (do
      if (← rbChild d.flip parent) = node then
        rbRotate d parent
        return (parent, node)
      else
        return (node, parent))
    rbSetBlack parent
    rbSetRed gparent
    rbRotate d.flip gparent
    return node

/-- The `while` loop of `rb_insert_color`. -/
def rbInsertColorLoop : Nat → RbPtr → RbM Unit
  | 0, _ => fun _ => none
  | turns + 1, node => do
    let parent ← rbParent node
    if ← rbNonNullRed parent then
      let gparent ← rbParent parent
      let node ← (do
        if parent = (← rbChild .left gparent) then rbInsertColorTurn .left node parent gparent
        else rbInsertColorTurn .right node parent gparent)
      rbInsertColorLoop turns node
    else
      return ()

/-- `rb_insert_color`. -/
def rbInsertColor (turns : Nat) (node : RbPtr) : RbM Unit := do
  rbInsertColorLoop turns node
  rbSetBlack (← rbRoot)

/-! ## `rb_erase` -/

/-- Where a turn of `__rb_erase_color` goes: on with a new `node` and `parent`, or out of the loop
with `node = root->rb_node`. -/
inductive RbTurn where
  | next (node parent : RbPtr)
  | stop (node : RbPtr)

/-- The start of a turn of `__rb_erase_color`, where `node` is the child of `parent` on side `d`: the
sibling `other`, after a red one was turned up over the parent. -/
def rbEraseColorSibling (d : Side) (parent : RbPtr) : RbM RbPtr := do
  let other ← rbChild d.flip parent
  if ← rbIsRed other then
    rbSetBlack other
    rbSetRed parent
    rbRotate d parent
    rbChild d.flip parent
  else
    return other

/-- `(!other->rb_left || …) && (!other->rb_right || …)`. -/
def rbBothBlack (other : RbPtr) : RbM Bool := do
  if ← rbNullOrBlack (← rbChild .left other) then rbNullOrBlack (← rbChild .right other)
  else return false

/-- The sibling of a turn that rotates, with a red far child: a black one is first replaced by a
rotation at the sibling. -/
def rbEraseColorFar (d : Side) (parent other : RbPtr) : RbM RbPtr := do
  if ← rbNullOrBlack (← rbChild d.flip other) then
    rbSetBlack (← rbChild d other)
    rbSetRed other
    rbRotate d.flip other
    rbChild d.flip parent
  else
    return other

/-- The rotation that ends the loop. -/
def rbEraseColorLift (d : Side) (parent other : RbPtr) : RbM RbTurn := do
  rbSetColor other (← rbColor parent)
  rbSetBlack parent
  rbSetBlack (← rbChild d.flip other)
  rbRotate d parent
  return .stop (← rbRoot)

/-- A turn of `__rb_erase_color` about a black sibling `other`. -/
def rbEraseColorStep (d : Side) (parent other : RbPtr) : RbM RbTurn := do
  if ← rbBothBlack other then
    rbSetRed other
    return .next parent (← rbParent parent)
  else
    let other ← rbEraseColorFar d parent other
    rbEraseColorLift d parent other

/-- One turn of the loop of `__rb_erase_color`. -/
def rbEraseColorTurn (d : Side) (parent : RbPtr) : RbM RbTurn := do
  let other ← rbEraseColorSibling d parent
  rbEraseColorStep d parent other

/-- The `while` loop of `__rb_erase_color`: the value of `node` after it. -/
def rbEraseColorLoop : Nat → RbPtr → RbPtr → RbM RbPtr
  | 0, _, _ => fun _ => none
  | turns + 1, node, parent => do
    if ← rbNullOrBlack node then
      if node ≠ (← rbRoot) then
        let turn ← (do
          if (← rbChild .left parent) = node then rbEraseColorTurn .left parent
          else rbEraseColorTurn .right parent)
        match turn with
        | .next node parent => rbEraseColorLoop turns node parent
        | .stop node => return node
      else
        return node
    else
      return node

/-- `__rb_erase_color`. -/
def rbEraseColor (turns : Nat) (node parent : RbPtr) : RbM Unit := do
  let node ← rbEraseColorLoop turns node parent
  if node ≠ 0 then rbSetBlack node

/-- The loop `while (n->rb_left) n = n->rb_left`, and the one on the right. -/
def rbDescend (d : Side) : Nat → RbPtr → RbM RbPtr
  | 0, _ => fun _ => none
  | turns + 1, n => do
    let next ← rbChild d n
    if next ≠ 0 then rbDescend d turns next else return n

/-- What `rb_erase` does to a node that has at most the child `child`: the child and the parent of
the place that is left, and the colour that went. -/
def rbEraseSplice (node child : RbPtr) : RbM (RbPtr × RbPtr × BitVec 32) := do
  let parent ← rbParent node
  let color ← rbColor node
  rbSetParentIf child parent
  rbRelink .left parent node child
  return (child, parent, color)

/-- The successor `node` leaves its place under `parent` to its child, and gets the right subtree of
`old`. -/
def rbEraseDetach (old node child parent : RbPtr) : RbM Unit := do
  rbSetParentIf child parent
  rbSetChild .left parent child
  rbSetChild .right node (← rbChild .right old)
  rbSetParent (← rbChild .right old) node

/-- The successor `node` gets the parent, the colour and the left subtree of `old`. -/
def rbEraseAdopt (old node : RbPtr) : RbM Unit := do
  let o ← rbLoad old
  rbModify node fun n => { n with rbParentColor := o.rbParentColor }
  rbSetChild .left node (← rbChild .left old)
  rbSetParent (← rbChild .left old) node

/-- What `rb_erase` does to a node `old` with two children: its successor is taken out of its own
place and put in the place of `old`. -/
def rbEraseSuccessor (turns : Nat) (old : RbPtr) : RbM (RbPtr × RbPtr × BitVec 32) := do
  let node ← rbDescend .left turns (← rbChild .right old)
  rbRelink .left (← rbParent old) old node
  let child ← rbChild .right node
  let parent ← rbParent node
  let color ← rbColor node
  if parent = old then
    rbEraseAdopt old node
    return (child, node, color)
  else
    rbEraseDetach old node child parent
    rbEraseAdopt old node
    return (child, parent, color)

/-- `rb_erase`. -/
def rbErase (turns : Nat) (node : RbPtr) : RbM Unit := do
  let (child, parent, color) ← (do
    if (← rbChild .left node) = 0 then rbEraseSplice node (← rbChild .right node)
    else if (← rbChild .right node) = 0 then rbEraseSplice node (← rbChild .left node)
    else rbEraseSuccessor turns node)
  if color = rbColorBit .black then rbEraseColor turns child parent

/-! ## Walking the tree -/

/-- `rb_first` on side `left`, `rb_last` on side `right`. -/
def rbEnd (d : Side) (turns : Nat) : RbM RbPtr := do
  let n ← rbRoot
  if n = 0 then return 0
  rbDescend d turns n

/-- `rb_first`. -/
def rbFirst : Nat → RbM RbPtr := rbEnd .left

/-- `rb_last`. -/
def rbLast : Nat → RbM RbPtr := rbEnd .right

/-- The loop `while ((parent = rb_parent(node)) && node == parent->rb_right) node = parent`, and the
one on the left: the last `parent`. -/
def rbAscend (d : Side) : Nat → RbPtr → RbM RbPtr
  | 0, _ => fun _ => none
  | turns + 1, node => do
    let parent ← rbParent node
    if parent ≠ 0 then
      if node = (← rbChild d parent) then rbAscend d turns parent else return parent
    else
      return parent

/-- `rb_next` on side `right`, `rb_prev` on side `left`. -/
def rbStep (d : Side) (turns : Nat) (node : RbPtr) : RbM RbPtr := do
  if (← rbParent node) = node then return 0
  let right ← rbChild d node
  if right ≠ 0 then rbDescend d.flip turns right
  else rbAscend d turns node

/-- `rb_next`. -/
def rbNext : Nat → RbPtr → RbM RbPtr := rbStep .right

/-- `rb_prev`. -/
def rbPrev : Nat → RbPtr → RbM RbPtr := rbStep .left

/-- `rb_replace_node`. -/
def rbReplaceNode (victim new : RbPtr) : RbM Unit := do
  rbRelink .left (← rbParent victim) victim new
  rbSetParentIf (← rbChild .left victim) new
  rbSetParentIf (← rbChild .right victim) new
  let v ← rbLoad victim
  rbModify new fun _ => v

end Hurlex
