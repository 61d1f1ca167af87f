import Hurlex.Lib.LinkRing

/-!
# The kernel's linked lists (`include/lib/list.h`)

`struct list_head` is embedded in the objects it links, and a list is a ring through a bare
`list_head`. `Node H E` names both kinds of `list_head`: a head, or the field inside the entry `e`
(`list_entry` takes the field back to its entry). The functions below are the store sequences of
`__list_add` and `__list_del` as the header writes them; the theorems say what they do to the
contents of a list, for any list in the store.
-/

namespace Hurlex

open Lib

/-- A `struct list_head`: a list head, or the list field of an entry. -/
inductive Node (H E : Type) where
  | head (h : H)
  | entry (e : E)
  deriving DecidableEq, Repr

variable {P : Type} [DecidableEq P]

/-- `INIT_LIST_HEAD`. -/
def initListHead (L : Links P) (list : P) : Links P := (L.setNext list list).setPrev list list

/-- `__list_add`: `next->prev = new; new->next = next; new->prev = prev; prev->next = new`. -/
def listAddBetween (L : Links P) (new prev next : P) : Links P :=
  let L := L.setPrev next new
  let L := L.setNext new next
  let L := L.setPrev new prev
  L.setNext prev new

/-- `list_add`: right after `head`. -/
def listAdd (L : Links P) (new head : P) : Links P := listAddBetween L new head (L.next head)

/-- `list_add_before`: right before `head`. -/
def listAddBefore (L : Links P) (new head : P) : Links P :=
  listAddBetween L new (L.prev head) head

/-- `__list_del`: `next->prev = prev; prev->next = next`. -/
def listDelBetween (L : Links P) (prev next : P) : Links P :=
  let L := L.setPrev next prev
  L.setNext prev next

/-- `list_del`. The words of `entry` itself are kept. -/
def listDel (L : Links P) (entry : P) : Links P := listDelBetween L (L.prev entry) (L.next entry)

/-- `list_empty`. -/
def listEmpty (L : Links P) (head : P) : Bool := decide (L.next head = head)

variable {L : Links P} {h x c : P} {xs ys : List P}

theorem initListHead_ring (L : Links P) (h : P) : LinkRing (initListHead L h) h [] :=
  LinkRing.nil_iff.mpr ⟨by simp [initListHead], by simp [initListHead]⟩

theorem listAdd_ring (hr : LinkRing L h xs) (hx : x ∉ h :: xs) :
    LinkRing (listAdd L x h) h (x :: xs) :=
  hr.insert_after hx

/-- `list_add` after the entry `c` of a longer list. -/
theorem listAdd_ring_mem (hr : LinkRing L h (xs ++ c :: ys)) (hx : x ∉ h :: (xs ++ c :: ys)) :
    LinkRing (listAdd L x c) h (xs ++ c :: x :: ys) :=
  hr.insert_after_mem hx

theorem listAddBefore_ring (hr : LinkRing L h xs) (hx : x ∉ h :: xs) :
    LinkRing (listAddBefore L x h) h (xs ++ [x]) :=
  hr.insert_before hx

/-- `list_add_before` in front of the entry `c` of a longer list. -/
theorem listAddBefore_ring_mem (hr : LinkRing L h (xs ++ c :: ys))
    (hx : x ∉ h :: (xs ++ c :: ys)) :
    LinkRing (listAddBefore L x c) h (xs ++ x :: c :: ys) :=
  hr.insert_before_mem hx

/-- `list_add_before` in front of the node `le`, the head or an entry. -/
theorem listAddBefore_ring_at {le : P} (hr : LinkRing L h (xs ++ ys))
    (hle : (ys ++ [h]).head? = some le) (hx : x ∉ h :: (xs ++ ys)) :
    LinkRing (listAddBefore L x le) h (xs ++ x :: ys) := by
  cases ys with
  | nil =>
    obtain rfl : h = le := by simpa using hle
    rw [List.append_nil] at hr hx
    exact listAddBefore_ring hr hx
  | cons c ys =>
    obtain rfl : c = le := by simpa using hle
    exact listAddBefore_ring_mem hr hx

theorem listDel_ring (hr : LinkRing L h (xs ++ c :: ys)) :
    LinkRing (listDel L c) h (xs ++ ys) :=
  hr.unlink

theorem listEmpty_iff (hr : LinkRing L h xs) : listEmpty L h = true ↔ xs = [] := by
  rw [listEmpty, decide_eq_true_iff]
  cases xs with
  | nil => simpa using (LinkRing.nil_iff.mp hr).1
  | cons a as =>
    have hn : L.next h = a := by
      have := hr.next_head
      simpa using this.symm
    have : a ≠ h := fun e => (List.nodup_cons.mp hr.nodup).1 (e ▸ List.mem_cons_self)
    simp [hn, this]

/-! ## What the functions leave alone -/

/-- `__list_add` writes only the words of the new node and of its two neighbours. -/
theorem listAddBetween_other {new p n y : P} (h1 : y ≠ new) (h2 : y ≠ p) (h3 : y ≠ n) :
    (listAddBetween L new p n).next y = L.next y ∧
      (listAddBetween L new p n).prev y = L.prev y := by
  simp [listAddBetween, h1, h2, h3]

/-- `__list_del` writes only the words of the two neighbours. -/
theorem listDelBetween_other {p n y : P} (h1 : y ≠ p) (h2 : y ≠ n) :
    (listDelBetween L p n).next y = L.next y ∧ (listDelBetween L p n).prev y = L.prev y := by
  simp [listDelBetween, h1, h2]

omit [DecidableEq P] in
/-- The neighbours `list_del` writes to are nodes of the ring. -/
theorem neighbours_mem (hr : LinkRing L h (xs ++ c :: ys)) :
    L.next c ∈ h :: (xs ++ ys) ∧ L.prev c ∈ h :: (xs ++ ys) := by
  constructor
  · have hm := List.mem_of_head? hr.next_mem
    simp only [List.mem_append, List.mem_cons, List.not_mem_nil, or_false] at hm ⊢
    tauto
  · have hm := List.mem_of_getLast? hr.prev_mem
    simp only [List.mem_append, List.mem_cons] at hm ⊢
    tauto

/-- Deleting from one list leaves a list it shares no node with as it was. -/
theorem listDel_frame {h' : P} {zs : List P} (hr : LinkRing L h (xs ++ c :: ys))
    (hz : LinkRing L h' zs) (hdis : ∀ y ∈ h' :: zs, y ∉ h :: (xs ++ ys)) :
    LinkRing (listDel L c) h' zs := by
  obtain ⟨hn, hp⟩ := neighbours_mem hr
  refine hz.frame fun y hy => listDelBetween_other (fun e => ?_) (fun e => ?_)
  · exact hdis y hy (e ▸ hp)
  · exact hdis y hy (e ▸ hn)

/-- Adding to one list leaves a list it shares no node with as it was. -/
theorem listAdd_frame {h' : P} {zs : List P} (hr : LinkRing L h xs) (hz : LinkRing L h' zs)
    (hx : x ∉ h' :: zs) (hdis : ∀ y ∈ h' :: zs, y ∉ h :: xs) :
    LinkRing (listAdd L x h) h' zs := by
  have hn : L.next h ∈ h :: xs := by
    have hm := List.mem_of_head? hr.next_head
    simp only [List.mem_append, List.mem_cons, List.not_mem_nil, or_false] at hm ⊢
    tauto
  refine hz.frame fun y hy => listAddBetween_other (fun e => hx (e ▸ hy)) (fun e => ?_)
    (fun e => ?_)
  · exact hdis y hy (e ▸ List.mem_cons_self)
  · exact hdis y hy (e ▸ hn)

end Hurlex
