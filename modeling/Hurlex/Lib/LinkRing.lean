import Mathlib.Data.List.Nodup
import Mathlib.Logic.Function.Basic

/-!
# Circular doubly-linked lists in a store of link words

A store `Links P` gives every node of `P` a `next` and a `prev` word. `LinkRing L h xs` says that
the words of `h` and of the nodes `xs` form one closed ring: from `h` through `xs` in order and
back to `h`, in both directions, every node once. Nodes outside the ring are unconstrained, so
several rings live in one store.

* `insertBetween` / `bypass` are the two primitive edits, written store by store.
* `LinkRing.rotate`: a ring may be read from any of its nodes. Every edit below is therefore proved
  once, next to the head, and used anywhere.
* `LinkRing.insert_after`, `LinkRing.insert_before`, `LinkRing.unlink`: what the edits do to the
  contents.
* `scan` is the walk `for (x = …; x != stop; x = x->next)` that stops at the first node a test
  accepts; on a ring it is `List.find?` (`LinkRing.scan`).
* `Links.swap` exchanges the two directions, so a backward walk is a forward walk of the reversed
  contents (`LinkRing.swap`).
-/

namespace Hurlex.Lib

/-- The link words of every node. -/
structure Links (P : Type) where
  next : P → P
  prev : P → P

namespace Links

variable {P : Type} [DecidableEq P]

/-- `x->next = v`. -/
def setNext (L : Links P) (x v : P) : Links P := { L with next := Function.update L.next x v }

/-- `x->prev = v`. -/
def setPrev (L : Links P) (x v : P) : Links P := { L with prev := Function.update L.prev x v }

@[simp] theorem setNext_next (L : Links P) (x v : P) :
    (L.setNext x v).next = Function.update L.next x v := rfl

@[simp] theorem setNext_prev (L : Links P) (x v : P) : (L.setNext x v).prev = L.prev := rfl

@[simp] theorem setPrev_prev (L : Links P) (x v : P) :
    (L.setPrev x v).prev = Function.update L.prev x v := rfl

@[simp] theorem setPrev_next (L : Links P) (x v : P) : (L.setPrev x v).next = L.next := rfl

/-- Link `x` in between the neighbours `p` and `n`. -/
def insertBetween (L : Links P) (x p n : P) : Links P :=
  (((L.setPrev n x).setNext x n).setPrev x p).setNext p x

/-- Make `p` and `n` neighbours, leaving out whatever was between them. -/
def bypass (L : Links P) (p n : P) : Links P := (L.setPrev n p).setNext p n

/-- The two directions exchanged. -/
def swap (L : Links P) : Links P := ⟨L.prev, L.next⟩

/-- The walk from `x` along `next`: `some none` when it comes to `stop`, `some (some y)` when `y` is
the first node `test` accepts, `none` when `fuel` nodes were not enough. -/
def scan (L : Links P) (stop : P) (test : P → Bool) : Nat → P → Option (Option P)
  | 0, _ => none
  | fuel + 1, x =>
    if x = stop then some none
    else if test x then some (some x) else scan L stop test fuel (L.next x)

end Links

/-- The nodes met on the walk from the head `h`, up to where it first comes back to `h`. -/
inductive Links.OnList {P : Type} (L : Links P) (h : P) : P → Prop
  | first (hne : L.next h ≠ h) : OnList L h (L.next h)
  | step {x : P} (hx : OnList L h x) (hne : L.next x ≠ h) : OnList L h (L.next x)

/-- `h` and `xs` form a closed ring in both directions. -/
structure LinkRing {P : Type} (L : Links P) (h : P) (xs : List P) : Prop where
  nodup : (h :: xs).Nodup
  next : (h :: xs).map L.next = xs ++ [h]
  prev : (xs ++ [h]).map L.prev = h :: xs

namespace LinkRing

variable {P : Type} {L : Links P} {h : P} {xs ys : List P}

/-! ## Reading a ring -/

/-- A node that points at itself both ways is an empty ring. -/
theorem nil_iff : LinkRing L h [] ↔ L.next h = h ∧ L.prev h = h := by
  constructor
  · intro hr
    exact ⟨by simpa using hr.next, by simpa using hr.prev⟩
  · rintro ⟨hn, hp⟩
    exact ⟨List.nodup_singleton h, by simp [hn], by simp [hp]⟩

/-- A ring reads only the words of its own nodes. -/
theorem frame {L' : Links P} (hr : LinkRing L h xs)
    (hag : ∀ x ∈ h :: xs, L'.next x = L.next x ∧ L'.prev x = L.prev x) :
    LinkRing L' h xs := by
  refine ⟨hr.nodup, ?_, ?_⟩
  · rw [← hr.next]
    exact List.map_congr_left fun x hx => (hag x hx).1
  · rw [← hr.prev]
    refine List.map_congr_left fun x hx => (hag x ?_).2
    rw [List.mem_append, List.mem_singleton] at hx
    exact List.mem_cons.mpr hx.symm

/-- The node after the head. -/
theorem next_head (hr : LinkRing L h xs) : (xs ++ [h]).head? = some (L.next h) := by
  rw [← hr.next]
  rfl

/-- The node before the head. -/
theorem prev_head (hr : LinkRing L h xs) : (h :: xs).getLast? = some (L.prev h) := by
  rw [← hr.prev, List.map_append, List.map_singleton, List.getLast?_append]
  rfl

/-- **A ring may be read from any of its nodes.** -/
theorem rotate {c : P} (hr : LinkRing L h (xs ++ c :: ys)) : LinkRing L c (ys ++ h :: xs) := by
  obtain ⟨hnd, hn, hp⟩ := hr
  have hn' : (h :: xs).map L.next ++ (c :: ys).map L.next = (xs ++ [c]) ++ (ys ++ [h]) := by
    rw [← List.map_append]
    simpa using hn
  have hp' : (xs ++ [c]).map L.prev ++ (ys ++ [h]).map L.prev = (h :: xs) ++ (c :: ys) := by
    rw [← List.map_append]
    simpa using hp
  obtain ⟨hn1, hn2⟩ := List.append_inj hn' (by simp)
  obtain ⟨hp1, hp2⟩ := List.append_inj hp' (by simp)
  refine ⟨?_, ?_, ?_⟩
  · have hperm : (c :: (ys ++ h :: xs)).Perm (h :: (xs ++ c :: ys)) := by
      have : (c :: ys ++ (h :: xs)).Perm (h :: xs ++ (c :: ys)) := List.perm_append_comm
      simpa using this
    exact hperm.nodup_iff.mpr hnd
  · rw [← List.cons_append, List.map_append, hn1, hn2]
    simp
  · have hsplit : ys ++ h :: xs ++ [c] = (ys ++ [h]) ++ (xs ++ [c]) := by simp
    rw [hsplit, List.map_append, hp1, hp2]
    simp

/-- The node after an inner node. -/
theorem next_mem {c : P} (hr : LinkRing L h (xs ++ c :: ys)) :
    (ys ++ [h]).head? = some (L.next c) := by
  have := hr.rotate.next_head
  cases ys <;> simpa using this

/-- The node before an inner node. -/
theorem prev_mem {c : P} (hr : LinkRing L h (xs ++ c :: ys)) :
    (h :: xs).getLast? = some (L.prev c) := by
  have := hr.rotate.prev_head
  rw [← List.cons_append, List.getLast?_append] at this
  rw [← this]
  cases hl : (h :: xs).getLast? with
  | none => simp at hl
  | some a => rfl

theorem swap (hr : LinkRing L h xs) : LinkRing L.swap h xs.reverse := by
  refine ⟨?_, ?_, ?_⟩
  · rw [List.nodup_cons, List.mem_reverse, List.nodup_reverse]
    exact List.nodup_cons.mp hr.nodup
  · have := congrArg List.reverse hr.prev
    simpa [Links.swap, ← List.map_reverse] using this
  · have := congrArg List.reverse hr.next
    simpa [Links.swap, ← List.map_reverse] using this

/-- Two walks that both end at their first return to `h` are the same walk. -/
theorem walk_unique {f : P → P} : ∀ {a : P} {xs ys : List P}, (a :: xs).map f = xs ++ [h] →
    (a :: ys).map f = ys ++ [h] → h ∉ xs → h ∉ ys → xs = ys
  | _, [], [], _, _, _, _ => rfl
  | a, [], y :: ys, hx, hy, _, hny => by
    have e : f a = h := by simpa using hx
    simp only [List.map_cons, List.cons_append, List.cons.injEq] at hy
    exact absurd (by rw [← hy.1, e]; exact List.mem_cons_self) hny
  | a, x :: xs, [], hx, hy, hnx, _ => by
    have e : f a = h := by simpa using hy
    simp only [List.map_cons, List.cons_append, List.cons.injEq] at hx
    exact absurd (by rw [← hx.1, e]; exact List.mem_cons_self) hnx
  | a, x :: xs, y :: ys, hx, hy, hnx, hny => by
    obtain ⟨hx₁, hx₂⟩ := List.cons.inj hx
    obtain ⟨hy₁, hy₂⟩ := List.cons.inj hy
    obtain rfl : x = y := hx₁.symm.trans hy₁
    have hx' : h ∉ xs := fun hm => hnx (List.mem_cons_of_mem _ hm)
    have hy' : h ∉ ys := fun hm => hny (List.mem_cons_of_mem _ hm)
    rw [walk_unique hx₂ hy₂ hx' hy']

/-- **A head has one ring.** -/
theorem unique (hx : LinkRing L h xs) (hy : LinkRing L h ys) : xs = ys :=
  walk_unique hx.next hy.next (List.nodup_cons.mp hx.nodup).1 (List.nodup_cons.mp hy.nodup).1

/-- **The walk from the head meets exactly the contents.** -/
theorem onList_iff {x : P} (hr : LinkRing L h xs) : L.OnList h x ↔ x ∈ xs := by
  constructor
  · intro hx
    induction hx with
    | first hne =>
      have hm := List.mem_of_head? hr.next_head
      simpa [hne] using hm
    | step hx hne ih =>
      obtain ⟨as, bs, rfl⟩ := List.append_of_mem ih
      have hm := List.mem_of_head? hr.next_mem
      simp only [List.mem_append, List.mem_cons, List.not_mem_nil, or_false, hne] at hm ⊢
      tauto
  · -- along the contents: a node is met because the one before it is
    have key : ∀ (suf pre : List P) (y : P), LinkRing L h (pre ++ suf) →
        (pre = [] ∨ ∃ p ps, pre = ps ++ [p] ∧ L.OnList h p) → y ∈ suf → L.OnList h y := by
      intro suf
      induction suf with
      | nil => exact fun _ _ _ _ hy => absurd hy List.not_mem_nil
      | cons z suf ih =>
        intro pre y hring hpre hy
        have hzh : z ≠ h := by
          rintro rfl
          exact (List.nodup_cons.mp hring.nodup).1 (by simp)
        have hz : L.OnList h z := by
          rcases hpre with rfl | ⟨p, ps, rfl, hp⟩
          · have hn : L.next h = z := by simpa using hring.next_head.symm
            exact hn ▸ Links.OnList.first (hn ▸ hzh)
          · rw [List.append_assoc, List.singleton_append] at hring
            have hn : L.next p = z := by simpa using hring.next_mem.symm
            exact hn ▸ Links.OnList.step hp (hn ▸ hzh)
        rcases List.mem_cons.mp hy with rfl | hy
        · exact hz
        · exact ih (pre ++ [z]) y (by simpa using hring) (Or.inr ⟨z, pre, rfl, hz⟩) hy
    exact fun hx => key xs [] x hr (Or.inl rfl) hx

/-! ## Editing a ring -/

variable [DecidableEq P]

theorem map_update_of_notMem {Q : Type} (f : P → Q) {a : P} {b : Q} {l : List P} (ha : a ∉ l) :
    l.map (Function.update f a b) = l.map f :=
  List.map_congr_left fun _ hx => Function.update_of_ne (ne_of_mem_of_not_mem hx ha) _ _

/-- **Link a new node in after the head.** -/
theorem insert_after {x : P} (hr : LinkRing L h xs) (hx : x ∉ h :: xs) :
    LinkRing (L.insertBetween x h (L.next h)) h (x :: xs) := by
  obtain ⟨hnd, hn, hp⟩ := hr
  have hxh : x ≠ h := fun e => hx (e ▸ List.mem_cons_self)
  have hxs : x ∉ xs := fun e => hx (List.mem_cons_of_mem h e)
  have hhxs : h ∉ xs := (List.nodup_cons.mp hnd).1
  -- the first node after the head, and the rest of the walk
  obtain ⟨n, rest, hnr⟩ : ∃ n rest, xs ++ [h] = n :: rest := by
    cases xs with
    | nil => exact ⟨h, [], rfl⟩
    | cons a as => exact ⟨a, as ++ [h], rfl⟩
  have hnx : L.next h = n := by
    rw [hnr, List.map_cons] at hn
    exact (List.cons.inj hn).1
  have hrest : rest.map L.prev = xs := by
    rw [hnr, List.map_cons] at hp
    exact (List.cons.inj hp).2
  have hnodup' : (n :: rest).Nodup := by
    rw [← hnr]
    exact (List.nodup_append_comm.mp (by simpa using hnd))
  have hxr : x ∉ n :: rest := by
    rw [← hnr]
    simp [hxs, hxh]
  rw [hnx]
  refine ⟨List.nodup_cons.mpr ⟨?_, List.nodup_cons.mpr ⟨hxs, (List.nodup_cons.mp hnd).2⟩⟩, ?_, ?_⟩
  · rw [List.mem_cons, not_or]
    exact ⟨hxh.symm, hhxs⟩
  · have hmap : xs.map L.next = rest := by
      rw [hnr, List.map_cons] at hn
      exact (List.cons.inj hn).2
    simp only [Links.insertBetween, Links.setNext_next, Links.setPrev_next, List.map_cons,
      Function.update_self, Function.update_of_ne hxh]
    rw [map_update_of_notMem _ hhxs, map_update_of_notMem _ hxs, hmap, ← hnr]
    rfl
  · have hxn : x ≠ n := fun e => hxr (e ▸ List.mem_cons_self)
    have hnrest : n ∉ rest := (List.nodup_cons.mp hnodup').1
    have hxrest : x ∉ rest := fun e => hxr (List.mem_cons_of_mem n e)
    rw [List.cons_append, hnr]
    simp only [Links.insertBetween, Links.setNext_prev, Links.setPrev_prev, List.map_cons,
      Function.update_self, Function.update_of_ne hxn.symm]
    rw [map_update_of_notMem _ hxrest, map_update_of_notMem _ hnrest, hrest]

/-- **Link a new node in before the head**, at the end of the contents. -/
theorem insert_before {x : P} (hr : LinkRing L h xs) (hx : x ∉ h :: xs) :
    LinkRing (L.insertBetween x (L.prev h) h) h (xs ++ [x]) := by
  rcases List.eq_nil_or_concat xs with rfl | ⟨zs, l, rfl⟩
  · obtain ⟨hn, hp⟩ := nil_iff.mp hr
    have := hr.insert_after hx
    rw [hn] at this
    rw [hp]
    exact this
  · -- read the ring from its last node `l`: the new node goes after `l`
    rw [List.concat_eq_append] at hr hx ⊢
    have hl : L.prev h = l := by
      have := hr.prev_head
      rw [← List.cons_append, List.getLast?_append] at this
      simpa using this.symm
    have hrot : LinkRing L l (h :: zs) := by
      have : LinkRing L l ([] ++ h :: zs) := hr.rotate
      exact this
    have hln : L.next l = h := by
      have := hrot.next_head
      simpa using this.symm
    have hx' : x ∉ l :: h :: zs := by
      simp only [List.mem_cons, List.mem_append] at hx ⊢
      tauto
    have hins := hrot.insert_after hx'
    rw [hln] at hins
    rw [hl]
    have hback : LinkRing (L.insertBetween x l h) h (zs ++ l :: [x]) :=
      LinkRing.rotate (by simpa using hins : LinkRing _ l ([x] ++ h :: zs))
    simpa using hback

/-- **Unlink the node after the head.** -/
theorem unlink_first {x : P} (hr : LinkRing L h (x :: xs)) :
    LinkRing (L.bypass (L.prev x) (L.next x)) h xs := by
  obtain ⟨hnd, hn, hp⟩ := hr
  have hhxs : h ∉ xs := fun e => (List.nodup_cons.mp hnd).1 (List.mem_cons_of_mem x e)
  have hnd' : (h :: xs).Nodup :=
    List.nodup_cons.mpr ⟨hhxs, (List.nodup_cons.mp (List.nodup_cons.mp hnd).2).2⟩
  obtain ⟨n, rest, hnr⟩ : ∃ n rest, xs ++ [h] = n :: rest := by
    cases xs with
    | nil => exact ⟨h, [], rfl⟩
    | cons a as => exact ⟨a, as ++ [h], rfl⟩
  rw [List.map_cons, List.map_cons, List.cons_append, hnr] at hn
  rw [List.cons_append, List.map_cons, hnr, List.map_cons] at hp
  have hxn : L.next x = n := (List.cons.inj (List.cons.inj hn).2).1
  have hxs : xs.map L.next = rest := (List.cons.inj (List.cons.inj hn).2).2
  have hpx : L.prev x = h := (List.cons.inj hp).1
  have hrest : rest.map L.prev = xs := (List.cons.inj (List.cons.inj hp).2).2
  have hnrest : n ∉ rest := by
    have : (n :: rest).Nodup := by
      rw [← hnr]
      exact List.nodup_append_comm.mp (by simpa using hnd')
    exact (List.nodup_cons.mp this).1
  rw [hxn, hpx]
  refine ⟨hnd', ?_, ?_⟩
  · simp only [Links.bypass, Links.setNext_next, Links.setPrev_next, List.map_cons,
      Function.update_self]
    rw [map_update_of_notMem _ hhxs, hxs, hnr]
  · rw [hnr]
    simp only [Links.bypass, Links.setNext_prev, Links.setPrev_prev, List.map_cons,
      Function.update_self]
    rw [map_update_of_notMem _ hnrest, hrest]

/-- **Unlink an inner node.** -/
theorem unlink {c : P} (hr : LinkRing L h (xs ++ c :: ys)) :
    LinkRing (L.bypass (L.prev c) (L.next c)) h (xs ++ ys) := by
  rcases List.eq_nil_or_concat xs with rfl | ⟨zs, l, rfl⟩
  · exact unlink_first hr
  · -- read the ring from `l`, the node before `c`
    have hr' : LinkRing L h (zs ++ l :: c :: ys) := by simpa using hr
    have hrot : LinkRing L l (c :: (ys ++ h :: zs)) := by simpa using hr'.rotate
    have := (unlink_first hrot).rotate
    simpa using this

/-- **Link a new node in after an inner node.** -/
theorem insert_after_mem {x c : P} (hr : LinkRing L h (xs ++ c :: ys))
    (hx : x ∉ h :: (xs ++ c :: ys)) :
    LinkRing (L.insertBetween x c (L.next c)) h (xs ++ c :: x :: ys) := by
  have hx' : x ∉ c :: (ys ++ h :: xs) := by
    simp only [List.mem_cons, List.mem_append] at hx ⊢
    tauto
  have := hr.rotate.insert_after hx'
  rw [← List.cons_append] at this
  simpa using this.rotate

/-- **Link a new node in before an inner node.** -/
theorem insert_before_mem {x c : P} (hr : LinkRing L h (xs ++ c :: ys))
    (hx : x ∉ h :: (xs ++ c :: ys)) :
    LinkRing (L.insertBetween x (L.prev c) c) h (xs ++ x :: c :: ys) := by
  have hx' : x ∉ c :: (ys ++ h :: xs) := by
    simp only [List.mem_cons, List.mem_append] at hx ⊢
    tauto
  have := hr.rotate.insert_before hx'
  rw [List.append_assoc, List.cons_append] at this
  simpa using this.rotate

/-- Any nodes can be linked into a ring. -/
theorem exists_ring : ∀ {xs : List P}, (h :: xs).Nodup → ∃ L, LinkRing L h xs
  | [], _ => ⟨⟨id, id⟩, nil_iff.2 ⟨rfl, rfl⟩⟩
  | x :: xs, hn => by
    obtain ⟨hx, hxs⟩ := List.nodup_cons.1 ((List.Perm.swap x h xs).nodup_iff.1 hn)
    obtain ⟨L, hL⟩ := exists_ring hxs
    exact ⟨_, hL.insert_after hx⟩

/-! ## Walking a ring -/

/-- The walk from the first node of a suffix of the contents. -/
theorem scan_suffix (test : P → Bool) :
    ∀ (suf pre : List P) (fuel : Nat) (x : P), LinkRing L h (pre ++ suf) → suf.length < fuel →
      (suf ++ [h]).head? = some x → L.scan h test fuel x = some (suf.find? test)
  | [], _, fuel, x, _, hf, hx => by
    obtain ⟨k, rfl⟩ : ∃ k, fuel = k + 1 := ⟨fuel - 1, by simp at hf; omega⟩
    have : x = h := by simpa using hx.symm
    simp [Links.scan, this]
  | y :: suf, pre, fuel, x, hr, hf, hx => by
    obtain ⟨k, rfl⟩ : ∃ k, fuel = k + 1 := ⟨fuel - 1, by simp at hf; omega⟩
    obtain rfl : y = x := by simpa using hx
    have hyh : y ≠ h := by
      rintro rfl
      exact (List.nodup_cons.mp hr.nodup).1 (by simp)
    rw [Links.scan, if_neg hyh, List.find?_cons]
    cases ht : test y with
    | true => rfl
    | false =>
      simp only [Bool.false_eq_true, if_false]
      refine scan_suffix test suf (pre ++ [y]) k (L.next y) (by simpa using hr) ?_ ?_
      · simp only [List.length_cons] at hf
        omega
      · exact hr.next_mem

/-- **The walk over a ring is `find?` on its contents.** -/
theorem scan (test : P → Bool) {fuel : Nat} (hr : LinkRing L h xs) (hf : xs.length < fuel) :
    L.scan h test fuel (L.next h) = some (xs.find? test) :=
  scan_suffix test xs [] fuel _ hr hf hr.next_head

end LinkRing

end Hurlex.Lib
