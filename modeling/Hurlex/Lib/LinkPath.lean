import Hurlex.Lib.LinkRing
import Mathlib.Data.List.Chain

/-!
# Cutting rings open and joining them

A ring is a path from its head back to its head. Every edit of a ring is one or more joins
(`Links.bypass`): a join makes two nodes neighbours, leaves a path that does not use the words it
writes as it was (`LinkPath.bypass`), and makes one path of two (`LinkPath.join`).

* `linkRing_iff`: rings and paths.
* `Links.AgreeOff`: what a sequence of joins leaves alone.
-/

namespace Hurlex.Lib

variable {P : Type} {L L' : Links P} {a b h : P} {xs ys zs : List P}

/-- `a` and `b` are neighbours, in both directions. -/
def Links.Linked (L : Links P) (a b : P) : Prop := L.next a = b ∧ L.prev b = a

/-- The nodes follow one another. -/
def LinkPath (L : Links P) (xs : List P) : Prop := xs.IsChain L.Linked

theorem path_iff_maps (xs : List P) (a b : P) : LinkPath L (a :: (xs ++ [b])) ↔
    (a :: xs).map L.next = xs ++ [b] ∧ (xs ++ [b]).map L.prev = a :: xs := by
  induction xs generalizing a with
  | nil => simp [LinkPath, Links.Linked]
  | cons x xs ih =>
    have h : LinkPath L (a :: (x :: xs ++ [b])) ↔ L.Linked a x ∧ LinkPath L (x :: (xs ++ [b])) :=
      List.isChain_cons_cons
    rw [h, ih]
    simp only [Links.Linked, List.map_cons, List.cons_append, List.cons.injEq]
    tauto

/-- **A ring is a path back to its head.** -/
theorem linkRing_iff : LinkRing L h xs ↔ (h :: xs).Nodup ∧ LinkPath L (h :: (xs ++ [h])) := by
  rw [path_iff_maps]
  exact ⟨fun hr => ⟨hr.nodup, hr.next, hr.prev⟩, fun ⟨h1, h2, h3⟩ => ⟨h1, h2, h3⟩⟩

theorem LinkPath.left (hp : LinkPath L (xs ++ ys)) : LinkPath L xs := List.IsChain.left_of_append hp

theorem LinkPath.right (hp : LinkPath L (xs ++ ys)) : LinkPath L ys := List.IsChain.right_of_append hp

theorem LinkPath.tail (hp : LinkPath L (a :: xs)) : LinkPath L xs := List.IsChain.tail hp

/-- The parts of a ring in front of an entry and behind it. -/
theorem LinkRing.parts {c : P} (hr : LinkRing L h (xs ++ c :: ys)) :
    LinkPath L (h :: xs) ∧ LinkPath L (h :: (xs ++ [c])) ∧ LinkPath L (ys ++ [h]) := by
  have hp := (linkRing_iff.1 hr).2
  have h1 : h :: (xs ++ c :: ys ++ [h]) = (h :: xs) ++ (c :: (ys ++ [h])) := by simp
  have h2 : h :: (xs ++ c :: ys ++ [h]) = (h :: (xs ++ [c])) ++ (ys ++ [h]) := by simp
  exact ⟨LinkPath.left (h1 ▸ hp), LinkPath.left (h2 ▸ hp), LinkPath.right (h2 ▸ hp)⟩

/-- The entries of a ring, and the entries with the way back. -/
theorem LinkRing.path (hr : LinkRing L h xs) : LinkPath L xs ∧ LinkPath L (xs ++ [h]) := by
  have hp := (linkRing_iff.1 hr).2
  have hback : LinkPath L (xs ++ [h]) := hp.tail
  exact ⟨hback.left, hback⟩

variable [DecidableEq P]

theorem linked_bypass (L : Links P) (a b : P) : (L.bypass a b).Linked a b :=
  ⟨Function.update_self .., Function.update_self ..⟩

theorem Links.Linked.bypass {x y : P} (h : L.Linked x y) (hx : x ≠ a) (hy : y ≠ b) :
    (L.bypass a b).Linked x y :=
  ⟨(Function.update_of_ne hx ..).trans h.1, (Function.update_of_ne hy ..).trans h.2⟩

/-- A join leaves a path alone that does not go on from `a` and does not come to `b`. -/
theorem LinkPath.bypass (hp : LinkPath L zs) (ha : a ∉ zs.dropLast) (hb : b ∉ zs.tail) :
    LinkPath (L.bypass a b) zs := by
  induction zs with
  | nil => exact List.isChain_nil
  | cons x zs ih =>
    cases zs with
    | nil => exact List.isChain_singleton x
    | cons y zs =>
      obtain ⟨hxy, hp⟩ := List.isChain_cons_cons.1 hp
      rw [List.dropLast_cons_cons, List.mem_cons, not_or] at ha
      rw [List.tail_cons] at hb
      refine List.isChain_cons_cons.2 ⟨hxy.bypass (Ne.symm ha.1) ?_, ih hp ha.2 ?_⟩
      · exact fun e => hb (e ▸ List.mem_cons_self)
      · exact fun hm => hb (List.mem_cons_of_mem y hm)

/-- **A join makes one path of two.** -/
theorem LinkPath.join (hx : LinkPath L (xs ++ [a])) (hy : LinkPath L (b :: ys)) (hax : a ∉ xs)
    (hbx : b ∉ (xs ++ [a]).tail) (hay : a ∉ (b :: ys).dropLast) (hby : b ∉ ys) :
    LinkPath (L.bypass a b) (xs ++ a :: b :: ys) := by
  refine List.isChain_append_cons_cons.2 ⟨hx.bypass ?_ hbx, linked_bypass L a b, hy.bypass hay hby⟩
  rw [List.dropLast_concat]
  exact hax

/-- A join in front of a path. -/
theorem LinkPath.join_cons (hy : LinkPath L (b :: ys)) (hay : a ∉ (b :: ys).dropLast) (hby : b ∉ ys) :
    LinkPath (L.bypass a b) (a :: b :: ys) :=
  List.isChain_cons_cons.2 ⟨linked_bypass L a b, hy.bypass hay hby⟩

/-! ## What joins leave alone -/

/-- The words of the nodes outside `A` are the same. -/
def Links.AgreeOff (A : Set P) (L L' : Links P) : Prop :=
  ∀ y ∉ A, L'.next y = L.next y ∧ L'.prev y = L.prev y

omit [DecidableEq P] in
theorem Links.AgreeOff.trans {A : Set P} {L'' : Links P} (h : L.AgreeOff A L')
    (h' : L'.AgreeOff A L'') : L.AgreeOff A L'' := fun y hy =>
  ⟨(h' y hy).1.trans (h y hy).1, (h' y hy).2.trans (h y hy).2⟩

theorem Links.agreeOff_bypass {A : Set P} (L : Links P) (ha : a ∈ A) (hb : b ∈ A) :
    L.AgreeOff A (L.bypass a b) := by
  intro y hy
  have hya : y ≠ a := fun e => hy (e ▸ ha)
  have hyb : y ≠ b := fun e => hy (e ▸ hb)
  exact ⟨Function.update_of_ne hya .., Function.update_of_ne hyb ..⟩

omit [DecidableEq P] in
/-- A ring outside `A` is the same ring. -/
theorem LinkRing.agree {A : Set P} (hr : LinkRing L h xs) (hag : L.AgreeOff A L')
    (hA : ∀ y ∈ h :: xs, y ∉ A) : LinkRing L' h xs :=
  hr.frame fun y hy => hag y (hA y hy)

end Hurlex.Lib
