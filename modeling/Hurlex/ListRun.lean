import Hurlex.ListEdit

/-!
# Programs over lists (`include/lib/list.h`, lines 33 to 218)

Any number of lists in one store, and any sequence of calls of the functions of the header. What the
lists stand for is a `Lists`: the contents of each head. `Allowed` is what a call expects of its
arguments, as the header and its callers have it: a node that is added is on no list, or is alone on
its own after `INIT_LIST_HEAD` or `list_del_init`; one that is deleted is on a list; and a list is not
put into itself.

* **`Stored`**: the store holds these lists, no two of them share a node.
* **`lists_lifetime`**: every call does on the store what `onLists` does on the contents.

Out of scope: `list_entry` and the macros made of it, as a node and the structure around it have one
address here, and calls that `Allowed` rules out, which break the rings.
-/

namespace Hurlex

open Lib

variable {P : Type} [DecidableEq P]

/-- The contents of every list, by its head. -/
abbrev Lists (P : Type) := P → Option (List P)

inductive ListOp (P : Type) where
  | init (list : P)
  | add (new head : P)
  | addTail (new head : P)
  | del (entry : P)
  | delInit (entry : P)
  | move (list head : P)
  | moveTail (list head : P)
  | replace (old new : P)
  | replaceInit (old new : P)
  | splice (list head : P)
  | spliceTail (list head : P)
  | spliceInit (list head : P)
  | spliceTailInit (list head : P)
  | cutPosition (list head entry : P)
  deriving DecidableEq, Repr

def listCall (L : Links P) : ListOp P → Links P
  | .init list => initListHead L list
  | .add new head => listAdd L new head
  | .addTail new head => listAddTail L new head
  | .del entry => listDel L entry
  | .delInit entry => listDelInit L entry
  | .move list head => listMove L list head
  | .moveTail list head => listMoveTail L list head
  | .replace old new => listReplace L old new
  | .replaceInit old new => listReplaceInit L old new
  | .splice list head => listSplice L list head
  | .spliceTail list head => listSpliceTail L list head
  | .spliceInit list head => listSpliceInit L list head
  | .spliceTailInit list head => listSpliceTailInit L list head
  | .cutPosition list head entry => listCutPosition L list head entry

def listCalls (L : Links P) (ops : List (ListOp P)) : Links P := ops.foldl listCall L

/-! ## The contents -/

section Contents

variable (σ : Lists P)

def Lists.set (h : P) (xs : List P) : Lists P := Function.update σ h (some xs)

/-- `f` of the contents of `h`. -/
def Lists.modify (h : P) (f : List P → List P) : Lists P := Function.update σ h ((σ h).map f)

/-- Without the entry `x`, whatever list it is on. -/
def Lists.drop (x : P) : Lists P := fun h => (σ h).map (·.erase x)

/-- With `new` for `old`, which is a head or an entry. -/
def Lists.swap (old new : P) : Lists P :=
  match σ old with
  | some xs => Function.update (Function.update σ old none) new (some xs)
  | none => fun h => (σ h).map (·.map fun y => if y = old then new else y)

/-- The contents of `l` put into `h` by `f`; afterwards `l` is what it is in `rest`. -/
def Lists.splice (l h : P) (rest : Option (List P)) (f : List P → List P → List P) : Lists P :=
  match σ l with
  | some (y :: ys) => Lists.modify (Function.update σ l rest) h (f (y :: ys))
  | _ => σ

/-- What is in front of `e` in `h` goes to `l`, with `e`. -/
def Lists.cut (l h e : P) : Lists P :=
  match σ h with
  | some (x :: xs) =>
    if e = h then σ.set l []
    else
      let n := (x :: xs).idxOf e + 1
      (σ.set l ((x :: xs).take n)).set h ((x :: xs).drop n)
  | _ => σ

/-- `x` is no head any more. -/
def Lists.forget (x : P) : Lists P := Function.update σ x none

def onLists : ListOp P → Lists P
  | .init list => σ.set list []
  | .add new head => (σ.forget new).modify head (new :: ·)
  | .addTail new head => (σ.forget new).modify head (· ++ [new])
  | .del entry => σ.drop entry
  | .delInit entry => (σ.drop entry).set entry []
  | .move list head => (σ.drop list).modify head (list :: ·)
  | .moveTail list head => (σ.drop list).modify head (· ++ [list])
  | .replace old new => (σ.forget new).swap old new
  | .replaceInit old new => ((σ.forget new).swap old new).set old []
  | .splice list head => σ.splice list head none (· ++ ·)
  | .spliceTail list head => σ.splice list head none fun ys xs => xs ++ ys
  | .spliceInit list head => σ.splice list head (some []) (· ++ ·)
  | .spliceTailInit list head => σ.splice list head (some []) fun ys xs => xs ++ ys
  | .cutPosition list head entry => σ.cut list head entry

/-- `x` is a node of no list. -/
def Lists.Free (x : P) : Prop := ∀ h xs, σ h = some xs → x ∉ h :: xs

/-- `x` is a node of no list but possibly the head of its own. -/
def Lists.Loose (x : P) : Prop := ∀ h xs, σ h = some xs → h ≠ x → x ∉ h :: xs

/-- `x` is a node of no list, or alone on its own. -/
def Lists.Unlinked (x : P) : Prop := ∀ h xs, σ h = some xs → x ∈ h :: xs → h = x ∧ xs = []

/-- `x` is an entry. -/
def Lists.On (x : P) : Prop := ∃ h xs, σ h = some xs ∧ x ∈ xs

def Lists.Head (h : P) : Prop := (σ h).isSome = true

/-- What a call expects. -/
def ListOp.Allowed : ListOp P → Prop
  | .init list => σ.Loose list
  | .add new head | .addTail new head => σ.Unlinked new ∧ (σ.forget new).Head head
  | .del entry | .delInit entry => σ.On entry
  | .move list head | .moveTail list head => σ.On list ∧ σ.Head head
  | .replace old new | .replaceInit old new =>
    (σ.On old ∨ (σ.forget new).Head old) ∧ σ.Unlinked new
  | .splice list head | .spliceTail list head | .spliceInit list head
  | .spliceTailInit list head => σ.Head list ∧ σ.Head head ∧ list ≠ head
  | .cutPosition list head entry =>
    σ.Loose list ∧ list ≠ head ∧ ∃ xs, σ head = some xs ∧ entry ∈ head :: xs

end Contents

/-- The contents after the calls. -/
def onListsAll (σ : Lists P) (ops : List (ListOp P)) : Lists P := ops.foldl onLists σ

/-- Every call finds what it expects. -/
def AllowedAll : Lists P → List (ListOp P) → Prop
  | _, [] => True
  | σ, op :: ops => op.Allowed σ ∧ AllowedAll (onLists σ op) ops

/-! ## The store -/

/-- The store holds the lists. -/
structure Stored (L : Links P) (σ : Lists P) : Prop where
  ring : ∀ {h xs}, σ h = some xs → LinkRing L h xs
  apart : ∀ {h h' xs xs' y}, σ h = some xs → σ h' = some xs' → y ∈ h :: xs → y ∈ h' :: xs' → h = h'

variable {L L' : Links P} {σ σ' : Lists P} {h l x e old new : P} {xs ys : List P}

omit [DecidableEq P] in
/-- **A change of some lists.** Every node it touches is in `A`; a list with a node in `A` is one of the
changed ones, and these are rings in `A` afterwards. -/
theorem Stored.edit {A : Set P} {C : P → Prop} (hs : Stored L σ) (hag : L.AgreeOff A L')
    (hold : ∀ h, ¬ C h → σ' h = σ h)
    (hmeet : ∀ h xs, σ h = some xs → ∀ y ∈ h :: xs, y ∈ A → C h)
    (hnew : ∀ h xs, C h → σ' h = some xs → LinkRing L' h xs ∧ ∀ y ∈ h :: xs, y ∈ A)
    (hdis : ∀ h h' xs xs' y, C h → C h' → σ' h = some xs → σ' h' = some xs' →
      y ∈ h :: xs → y ∈ h' :: xs' → h = h') : Stored L' σ' := by
  have hout : ∀ h xs, ¬ C h → σ' h = some xs → σ h = some xs ∧ ∀ y ∈ h :: xs, y ∉ A := by
    intro h xs hc hx
    rw [hold h hc] at hx
    exact ⟨hx, fun y hy hA => hc (hmeet h xs hx y hy hA)⟩
  constructor
  · intro h xs hx
    by_cases hc : C h
    · exact (hnew h xs hc hx).1
    · obtain ⟨hx, hA⟩ := hout h xs hc hx
      exact (hs.ring hx).agree hag hA
  · intro h h' xs xs' y hx hx' hy hy'
    by_cases hc : C h <;> by_cases hc' : C h'
    · exact hdis h h' xs xs' y hc hc' hx hx' hy hy'
    · exact absurd ((hnew h xs hc hx).2 y hy) ((hout h' xs' hc' hx').2 y hy')
    · exact absurd ((hnew h' xs' hc' hx').2 y hy') ((hout h xs hc hx).2 y hy)
    · exact hs.apart (hout h xs hc hx).1 (hout h' xs' hc' hx').1 hy hy'

/-- One list changed. -/
theorem Stored.edit_one {A : Set P} (hs : Stored L σ) (hag : L.AgreeOff A L')
    (hmeet : ∀ h' xs, σ h' = some xs → ∀ y ∈ h' :: xs, y ∈ A → h' = h)
    (hring : LinkRing L' h xs) (hA : ∀ y ∈ h :: xs, y ∈ A) : Stored L' (σ.set h xs) := by
  refine hs.edit (C := (· = h)) hag (fun h' hc => Function.update_of_ne hc ..) hmeet ?_ ?_
  · rintro h' xs' rfl hx'
    rw [Lists.set, Function.update_self] at hx'
    rw [← Option.some.inj hx']
    exact ⟨hring, hA⟩
  · rintro h₁ h₂ - - - rfl rfl - - - -
    rfl

omit [DecidableEq P] in
/-- A list that has a node of `h`'s is `h`'s. -/
theorem Stored.meet (hs : Stored L σ) (hx : σ h = some xs) {h' : P} {xs' : List P} {y : P}
    (hx' : σ h' = some xs') (hy' : y ∈ h' :: xs') (hy : y ∈ h :: xs) : h' = h :=
  hs.apart hx' hx hy' hy

omit [DecidableEq P] in
theorem head_neighbours (hr : LinkRing L h xs) : L.next h ∈ h :: xs ∧ L.prev h ∈ h :: xs := by
  refine ⟨?_, List.mem_of_getLast? hr.prev_head⟩
  have hm := List.mem_of_head? hr.next_head
  rw [List.mem_append, List.mem_singleton] at hm
  exact List.mem_cons.2 hm.symm

theorem agreeOff_listAddBetween {A : Set P} {x p n : P} (hx : x ∈ A) (hp : p ∈ A) (hn : n ∈ A) :
    L.AgreeOff A (listAddBetween L x p n) :=
  (Links.agreeOff_bypass L hx hn).trans (Links.agreeOff_bypass _ hp hx)

theorem Lists.modify_eq (hx : σ h = some xs) (f : List P → List P) :
    σ.modify h f = σ.set h (f xs) := by
  rw [Lists.modify, hx]
  rfl

/-! ## The functions -/

theorem Stored.init (hs : Stored L σ) (hl : σ.Loose l) :
    Stored (initListHead L l) (σ.set l []) := by
  have hl' : l ∈ ({l} : Set P) := rfl
  refine hs.edit_one (A := {l}) (Links.agreeOff_bypass L hl' hl') ?_ (initListHead_ring L l) ?_
  · rintro h xs hx y hy rfl
    by_contra hne
    exact hl h xs hx hne hy
  · intro y hy
    rw [List.mem_singleton] at hy
    exact hy

/-- A new node next to a head. -/
theorem Stored.insert (hs : Stored L σ) (hx : σ h = some xs) (hf : σ.Free x) {p n : P}
    {zs : List P} (hp : p ∈ h :: xs) (hn : n ∈ h :: xs)
    (hring : LinkRing (listAddBetween L x p n) h zs) (hz : ∀ y ∈ zs, y = x ∨ y ∈ xs) :
    Stored (listAddBetween L x p n) (σ.set h zs) := by
  refine hs.edit_one (A := {y | y = x ∨ y ∈ h :: xs})
    (agreeOff_listAddBetween (.inl rfl) (.inr hp) (.inr hn)) ?_ hring ?_
  · rintro h' xs' hx' y hy (rfl | hy')
    · exact absurd hy (hf h' xs' hx')
    · exact hs.meet hx hx' hy hy'
  · intro y hy
    rcases List.mem_cons.1 hy with rfl | hy
    · exact .inr List.mem_cons_self
    · exact (hz y hy).imp id fun hm => List.mem_cons_of_mem h hm

theorem Stored.add (hs : Stored L σ) (hf : σ.Free x) (hh : σ.Head h) :
    Stored (listAdd L x h) (σ.modify h (x :: ·)) := by
  obtain ⟨xs, hx⟩ := Option.isSome_iff_exists.1 hh
  rw [Lists.modify_eq hx]
  refine hs.insert hx hf List.mem_cons_self (head_neighbours (hs.ring hx)).1
    (listAdd_ring (hs.ring hx) (hf h xs hx)) fun y hy => ?_
  exact List.mem_cons.1 hy

theorem Stored.addTail (hs : Stored L σ) (hf : σ.Free x) (hh : σ.Head h) :
    Stored (listAddTail L x h) (σ.modify h (· ++ [x])) := by
  obtain ⟨xs, hx⟩ := Option.isSome_iff_exists.1 hh
  rw [Lists.modify_eq hx]
  refine hs.insert hx hf (head_neighbours (hs.ring hx)).2 List.mem_cons_self
    (listAddTail_ring (hs.ring hx) (hf h xs hx)) fun y hy => ?_
  rw [List.mem_append, List.mem_singleton] at hy
  exact hy.symm

/-- What `drop` does to the list of the entry. -/
theorem Stored.drop_eq (hs : Stored L σ) (hx : σ h = some (xs ++ x :: ys)) :
    σ.drop x = σ.set h (xs ++ ys) := by
  funext h'
  by_cases he : h' = h
  · subst he
    have hnd := (List.nodup_cons.1 (hs.ring hx).nodup).2
    have hxs : x ∉ xs := fun hm => List.disjoint_of_nodup_append hnd hm List.mem_cons_self
    rw [Lists.set, Function.update_self, Lists.drop, hx, Option.map_some,
      List.erase_append_right _ hxs, List.erase_cons_head]
  · rw [Lists.set, Function.update_of_ne he, Lists.drop]
    cases hx' : σ h' with
    | none => rfl
    | some zs =>
      have hz : x ∉ zs := fun hm => he (hs.meet hx hx' (List.mem_cons_of_mem h' hm) (by simp))
      rw [Option.map_some, List.erase_of_not_mem hz]

theorem Stored.del (hs : Stored L σ) (ho : σ.On x) : Stored (listDel L x) (σ.drop x) := by
  obtain ⟨h, zs, hx, hm⟩ := ho
  obtain ⟨xs, ys, rfl⟩ := List.append_of_mem hm
  have hr := hs.ring hx
  obtain ⟨hn, hp⟩ := neighbours_mem hr
  have hsub : ∀ y ∈ h :: (xs ++ ys), y ∈ h :: (xs ++ x :: ys) := by
    intro y hy
    simp only [List.mem_cons, List.mem_append] at hy ⊢
    tauto
  rw [hs.drop_eq hx]
  refine hs.edit_one (A := {y | y ∈ h :: (xs ++ x :: ys)})
    (Links.agreeOff_bypass L (hsub _ hp) (hsub _ hn)) ?_ (listDel_ring hr) hsub
  exact fun h' xs' hx' y hy hy' => hs.meet hx hx' hy hy'

/-- A deleted entry is free. -/
theorem Stored.drop_free (hs : Stored L σ) (ho : σ.On x) : (σ.drop x).Free x := by
  obtain ⟨h, zs, hx, hm⟩ := ho
  intro h' zs' hx'
  obtain ⟨ws, hw, rfl⟩ := Option.map_eq_some_iff.1 hx'
  have hnd := List.nodup_cons.1 (hs.ring hw).nodup
  rw [List.mem_cons, not_or]
  refine ⟨?_, fun hm' => ?_⟩
  · rintro rfl
    obtain rfl := hs.apart hw hx List.mem_cons_self (List.mem_cons_of_mem h hm)
    exact (List.nodup_cons.1 (hs.ring hx).nodup).1 hm
  · exact List.Nodup.not_mem_erase hnd.2 hm'

omit [DecidableEq P] in
theorem Lists.Free.loose (hf : σ.Free x) : σ.Loose x := fun h xs hx _ => hf h xs hx

theorem Lists.Head.drop (hh : σ.Head h) (x : P) : (σ.drop x).Head h := by
  rw [Lists.Head, Lists.drop, Option.isSome_map]
  exact hh

theorem Stored.delInit (hs : Stored L σ) (ho : σ.On x) :
    Stored (listDelInit L x) ((σ.drop x).set x []) :=
  (hs.del ho).init (hs.drop_free ho).loose

theorem Stored.move (hs : Stored L σ) (ho : σ.On x) (hh : σ.Head h) :
    Stored (listMove L x h) ((σ.drop x).modify h (x :: ·)) :=
  (hs.del ho).add (hs.drop_free ho) (hh.drop x)

theorem Stored.moveTail (hs : Stored L σ) (ho : σ.On x) (hh : σ.Head h) :
    Stored (listMoveTail L x h) ((σ.drop x).modify h (· ++ [x])) :=
  (hs.del ho).addTail (hs.drop_free ho) (hh.drop x)

omit [DecidableEq P] in
/-- An entry is not a head. -/
theorem Stored.not_head (hs : Stored L σ) (ho : σ.On x) : σ x = none := by
  obtain ⟨h, xs, hx, hm⟩ := ho
  by_contra hne
  obtain ⟨zs, hz⟩ := Option.ne_none_iff_exists'.1 hne
  obtain rfl := hs.apart hz hx List.mem_cons_self (List.mem_cons_of_mem h hm)
  exact (List.nodup_cons.1 (hs.ring hx).nodup).1 hm

theorem agreeOff_listReplace {A : Set P} (hnew : new ∈ A) (hn : L.next old ∈ A)
    (hp : L.prev old ∈ A) : L.AgreeOff A (listReplace L old new) := by
  rw [listReplace_eq]
  refine (Links.agreeOff_bypass L hnew hn).trans (Links.agreeOff_bypass _ ?_ hnew)
  by_cases he : old = L.next old
  · rw [Links.bypass]
    show Function.update L.prev (L.next old) new old ∈ A
    rw [← he, Function.update_self]
    exact hnew
  · rw [bypass_prev_of_ne he]
    exact hp

theorem Stored.replace_entry (hs : Stored L σ) (ho : σ.On old) (hf : σ.Free new) :
    Stored (listReplace L old new) (σ.swap old new) := by
  have hnone := hs.not_head ho
  obtain ⟨h, zs, hx, hm⟩ := ho
  obtain ⟨xs, ys, rfl⟩ := List.append_of_mem hm
  have hr := hs.ring hx
  have hnd := (List.nodup_cons.1 hr.nodup).2
  have hout : ∀ {zs : List P}, old ∉ zs → zs.map (fun y => if y = old then new else y) = zs := by
    intro zs hz
    refine (List.map_congr_left fun y hy => ?_).trans (List.map_id zs)
    have hne : y ≠ old := fun e => hz (e ▸ hy)
    exact if_neg hne
  have hxs : old ∉ xs := fun hm => List.disjoint_of_nodup_append hnd hm List.mem_cons_self
  have hys : old ∉ ys := (List.nodup_cons.1 (List.nodup_append.1 hnd).2.1).1
  have hswap : σ.swap old new = σ.set h (xs ++ new :: ys) := by
    funext h'
    have happly : σ.swap old new h' =
        (σ h').map (·.map fun y => if y = old then new else y) := by
      rw [Lists.swap, hnone]
    rw [happly]
    by_cases he : h' = h
    · subst he
      rw [Lists.set, Function.update_self, hx, Option.map_some, List.map_append, List.map_cons,
        hout hxs, hout hys, if_pos rfl]
    · rw [Lists.set, Function.update_of_ne he]
      cases hx' : σ h' with
      | none => rfl
      | some zs =>
        have hz : old ∉ zs := fun hm => he (hs.meet hx hx' (List.mem_cons_of_mem h' hm) (by simp))
        rw [Option.map_some, hout hz]
  obtain ⟨hn, hp⟩ := neighbours_mem hr
  have hsub : ∀ y ∈ h :: (xs ++ ys), y ∈ h :: (xs ++ old :: ys) := by
    intro y hy
    simp only [List.mem_cons, List.mem_append] at hy ⊢
    tauto
  rw [hswap]
  refine hs.edit_one (A := {y | y = new ∨ y ∈ h :: (xs ++ old :: ys)})
    (agreeOff_listReplace (.inl rfl) (.inr (hsub _ hn)) (.inr (hsub _ hp))) ?_
    (listReplace_ring hr (hf h _ hx)) ?_
  · rintro h' xs' hx' y hy (rfl | hy')
    · exact absurd hy (hf h' xs' hx')
    · exact hs.meet hx hx' hy hy'
  · intro y hy
    show y = new ∨ y ∈ h :: (xs ++ old :: ys)
    simp only [List.mem_cons, List.mem_append] at hy ⊢
    tauto

theorem Stored.replace_head (hs : Stored L σ) (hx : σ old = some xs) (hf : σ.Free new) :
    Stored (listReplace L old new) (σ.swap old new) := by
  have hr := hs.ring hx
  have hnew := hf old xs hx
  have hne : new ≠ old := fun e => hnew (e ▸ List.mem_cons_self)
  have hswap : σ.swap old new = Function.update (Function.update σ old none) new (some xs) := by
    rw [Lists.swap, hx]
  have hold : σ.swap old new old = none := by
    rw [hswap, Function.update_of_ne hne.symm, Function.update_self]
  obtain ⟨hn, hp⟩ := head_neighbours hr
  refine hs.edit (A := {y | y = new ∨ y ∈ old :: xs}) (C := fun h => h = old ∨ h = new)
    (agreeOff_listReplace (.inl rfl) (.inr hn) (.inr hp)) ?_ ?_ ?_ ?_
  · intro h hc
    rw [not_or] at hc
    rw [hswap, Function.update_of_ne hc.2, Function.update_of_ne hc.1]
  · rintro h' xs' hx' y hy (rfl | hy')
    · exact absurd hy (hf h' xs' hx')
    · exact .inl (hs.meet hx hx' hy hy')
  · rintro h' xs' (rfl | rfl) hx'
    · rw [hold] at hx'
      cases hx'
    · rw [hswap, Function.update_self] at hx'
      rw [← Option.some.inj hx']
      refine ⟨listReplace_head hr hnew, fun y hy => ?_⟩
      exact (List.mem_cons.1 hy).imp id fun hm => List.mem_cons_of_mem old hm
  · rintro h₁ h₂ xs₁ xs₂ y (rfl | rfl) (rfl | rfl) h1 h2 - -
    · rfl
    · rw [hold] at h1
      cases h1
    · rw [hold] at h2
      cases h2
    · rfl

theorem Stored.replace (hs : Stored L σ) (ho : σ.On old ∨ σ.Head old) (hf : σ.Free new) :
    Stored (listReplace L old new) (σ.swap old new) := by
  rcases ho with ho | hh
  · exact hs.replace_entry ho hf
  · obtain ⟨xs, hx⟩ := Option.isSome_iff_exists.1 hh
    exact hs.replace_head hx hf

/-- What becomes of two lists when one is put into the other. -/
theorem Stored.spliceRaw (hs : Stored L σ) (hl : σ l = some ys) (hx : σ h = some xs) (hne : l ≠ h)
    {p n : P} {zs : List P} (hp : p ∈ h :: xs) (hn : n ∈ h :: xs)
    (hring : LinkRing (listSpliceRaw L l p n) h zs) (hz : ∀ y ∈ zs, y ∈ ys ∨ y ∈ xs) :
    Stored (listSpliceRaw L l p n) (Function.update (Function.update σ l none) h (some zs)) := by
  obtain ⟨hfirst, hlast⟩ := head_neighbours (hs.ring hl)
  set σ' := Function.update (Function.update σ l none) h (some zs) with hσ'
  have hσl : σ' l = none := by
    rw [hσ', Function.update_of_ne hne, Function.update_self]
  have hσh : σ' h = some zs := Function.update_self ..
  refine hs.edit (A := {y | y ∈ l :: ys ∨ y ∈ h :: xs}) (C := fun v => v = l ∨ v = h)
    ((Links.agreeOff_bypass L (.inr hp) (.inl hfirst)).trans
      (Links.agreeOff_bypass _ (.inl hlast) (.inr hn))) ?_ ?_ ?_ ?_
  · intro v hc
    rw [not_or] at hc
    rw [hσ', Function.update_of_ne hc.2, Function.update_of_ne hc.1]
  · rintro h' xs' hx' y hy (hy' | hy')
    · exact .inl (hs.meet hl hx' hy hy')
    · exact .inr (hs.meet hx hx' hy hy')
  · rintro v vs (rfl | rfl) hv
    · rw [hσl] at hv
      cases hv
    · rw [← Option.some.inj (hσh.symm.trans hv)]
      refine ⟨hring, fun y hy => ?_⟩
      rcases List.mem_cons.1 hy with rfl | hy
      · exact .inr List.mem_cons_self
      · exact (hz y hy).imp (List.mem_cons_of_mem l) (List.mem_cons_of_mem v)
  · rintro v w vs ws y (rfl | rfl) (rfl | rfl) hv hw - -
    · rfl
    · rw [hσl] at hv
      cases hv
    · rw [hσl] at hw
      cases hw
    · rfl

/-- The head of a list that has been put into another is loose. -/
theorem Stored.spliced_loose (hs : Stored L σ) (hl : σ l = some ys) (hx : σ h = some xs)
    (hne : l ≠ h) {zs : List P} (hz : ∀ y ∈ zs, y ∈ ys ∨ y ∈ xs) :
    Lists.Loose (Function.update (Function.update σ l none) h (some zs)) l := by
  intro v vs hv hvl hm
  by_cases hvh : v = h
  · subst hvh
    rw [Function.update_self] at hv
    rcases List.mem_cons.1 hm with e | hm
    · exact hne e
    · rcases hz l (Option.some.inj hv ▸ hm) with hy | hy
      · exact (List.nodup_cons.1 (hs.ring hl).nodup).1 hy
      · exact hne (hs.apart hl hx List.mem_cons_self (List.mem_cons_of_mem v hy))
  · rw [Function.update_of_ne hvh, Function.update_of_ne hvl] at hv
    exact hvl (hs.meet hl hv hm List.mem_cons_self)

theorem Lists.splice_eq (hl : σ l = some ys) (hx : σ h = some xs) (hne : l ≠ h) (hy : ys ≠ [])
    (rest : Option (List P)) (f : List P → List P → List P) :
    σ.splice l h rest f = Function.update (Function.update σ l rest) h (some (f ys xs)) := by
  obtain ⟨y, ys, rfl⟩ := List.exists_cons_of_ne_nil hy
  rw [Lists.splice, hl]
  show Lists.modify _ h _ = _
  rw [Lists.modify, Function.update_of_ne hne.symm, hx]
  rfl

theorem Lists.splice_nil (hl : σ l = some []) (rest : Option (List P))
    (f : List P → List P → List P) : σ.splice l h rest f = σ := by
  rw [Lists.splice, hl]

/-- `list_splice` and its kin, with the place and the order they have in common: the head is left
dangling, or made an empty list. -/
theorem Stored.splice (hs : Stored L σ) (hl : σ l = some ys) (hx : σ h = some xs) (hne : l ≠ h)
    {p n : P} {f : List P → List P → List P} (hp : p ∈ h :: xs) (hn : n ∈ h :: xs)
    (hring : ys ≠ [] → LinkRing (listSpliceRaw L l p n) h (f ys xs))
    (hz : ∀ y ∈ f ys xs, y ∈ ys ∨ y ∈ xs) :
    Stored (if !listEmpty L l then listSpliceRaw L l p n else L) (σ.splice l h none f) ∧
    Stored (if !listEmpty L l then initListHead (listSpliceRaw L l p n) l else L)
      (σ.splice l h (some []) f) := by
  by_cases hy : ys = []
  · subst hy
    have he : listEmpty L l = true := (listEmpty_iff (hs.ring hl)).2 rfl
    rw [he, Lists.splice_nil hl, Lists.splice_nil hl]
    exact ⟨hs, hs⟩
  · have he : listEmpty L l = false :=
      Bool.eq_false_iff.2 fun h => hy ((listEmpty_iff (hs.ring hl)).1 h)
    have hraw := hs.spliceRaw hl hx hne hp hn (hring hy) hz
    have hinit := hraw.init (hs.spliced_loose hl hx hne hz)
    rw [he, Lists.splice_eq hl hx hne hy, Lists.splice_eq hl hx hne hy]
    refine ⟨hraw, ?_⟩
    rw [Lists.set, Function.update_comm hne.symm, Function.update_idem] at hinit
    exact hinit

theorem Stored.splice_front (hs : Stored L σ) (hl : σ.Head l) (hh : σ.Head h) (hne : l ≠ h) :
    Stored (listSplice L l h) (σ.splice l h none (· ++ ·)) ∧
      Stored (listSpliceInit L l h) (σ.splice l h (some []) (· ++ ·)) := by
  obtain ⟨ys, hl⟩ := Option.isSome_iff_exists.1 hl
  obtain ⟨xs, hx⟩ := Option.isSome_iff_exists.1 hh
  refine hs.splice hl hx hne List.mem_cons_self (head_neighbours (hs.ring hx)).1 (fun hy => ?_)
    fun y hy => List.mem_append.1 hy
  exact listSpliceRaw_ring (hs.ring hx) (hs.ring hl) hy fun y hy hm =>
    hne (hs.apart hl hx (List.mem_cons_of_mem l hy) hm)

theorem Stored.splice_tail (hs : Stored L σ) (hl : σ.Head l) (hh : σ.Head h) (hne : l ≠ h) :
    Stored (listSpliceTail L l h) (σ.splice l h none fun ys xs => xs ++ ys) ∧
      Stored (listSpliceTailInit L l h) (σ.splice l h (some []) fun ys xs => xs ++ ys) := by
  obtain ⟨ys, hl⟩ := Option.isSome_iff_exists.1 hl
  obtain ⟨xs, hx⟩ := Option.isSome_iff_exists.1 hh
  refine hs.splice hl hx hne (head_neighbours (hs.ring hx)).2 List.mem_cons_self (fun hy => ?_)
    fun y hy => (List.mem_append.1 hy).symm
  exact listSpliceRaw_tail_ring (hs.ring hx) (hs.ring hl) hy fun y hy hm =>
    hne (hs.apart hl hx (List.mem_cons_of_mem l hy) hm)

theorem agreeOff_listCutPositionRaw {A : Set P} (hl : l ∈ A) (hh : h ∈ A) (he : e ∈ A)
    (hfirst : L.next h ∈ A) (hnext : L.next e ∈ A) :
    L.AgreeOff A (listCutPositionRaw L l h e) := by
  rw [listCutPositionRaw_eq]
  exact ((Links.agreeOff_bypass L hl hfirst).trans (Links.agreeOff_bypass _ he hl)).trans
    (Links.agreeOff_bypass _ hh hnext)

/-- The cut behind an entry. -/
theorem Stored.cutRaw (hs : Stored L σ) (hl : σ.Loose l) (hne : l ≠ h)
    (hx : σ h = some (xs ++ e :: ys)) :
    Stored (listCutPositionRaw L l h e) ((σ.set l (xs ++ [e])).set h ys) := by
  have hr := hs.ring hx
  have hlout : l ∉ h :: (xs ++ e :: ys) := hl h _ hx hne.symm
  obtain ⟨hrl, hrh⟩ := listCutPositionRaw_ring hr hlout
  have hsub : ∀ y ∈ h :: (xs ++ ys), y ∈ h :: (xs ++ e :: ys) := by
    intro y hy
    simp only [List.mem_cons, List.mem_append] at hy ⊢
    tauto
  have hnd := (List.nodup_cons.1 hr.nodup)
  set σ' := (σ.set l (xs ++ [e])).set h ys with hσ'
  have hσh : σ' h = some ys := Function.update_self ..
  have hσl : σ' l = some (xs ++ [e]) := by
    rw [hσ', Lists.set, Function.update_of_ne hne, Lists.set, Function.update_self]
  have hfront : ∀ y ∈ xs ++ [e], y ∉ h :: ys := by
    intro y hy hm
    have hmem : y ∈ xs ++ e :: ys := by
      simp only [List.mem_append, List.mem_cons, List.not_mem_nil, or_false] at hy ⊢
      tauto
    rcases List.mem_cons.1 hm with rfl | hm
    · exact hnd.1 hmem
    · have hsplit : xs ++ e :: ys = (xs ++ [e]) ++ ys := by simp
      exact List.disjoint_of_nodup_append (hsplit ▸ hnd.2) hy hm
  refine hs.edit (A := {y | y = l ∨ y ∈ h :: (xs ++ e :: ys)}) (C := fun v => v = l ∨ v = h)
    (agreeOff_listCutPositionRaw (.inl rfl) (.inr List.mem_cons_self) (.inr (by simp))
      (.inr (head_neighbours hr).1) (.inr (hsub _ (neighbours_mem hr).1))) ?_ ?_ ?_ ?_
  · intro v hc
    rw [not_or] at hc
    rw [hσ', Lists.set, Function.update_of_ne hc.2, Lists.set, Function.update_of_ne hc.1]
  · rintro h' xs' hx' y hy (rfl | hy')
    · left
      by_contra hne'
      exact hl h' xs' hx' hne' hy
    · exact .inr (hs.meet hx hx' hy hy')
  · rintro v vs (rfl | rfl) hv
    · rw [← Option.some.inj (hσl.symm.trans hv)]
      refine ⟨hrl, fun y hy => ?_⟩
      show y = v ∨ y ∈ h :: (xs ++ e :: ys)
      simp only [List.mem_cons, List.mem_append, List.not_mem_nil, or_false] at hy ⊢
      tauto
    · rw [← Option.some.inj (hσh.symm.trans hv)]
      refine ⟨hrh, fun y hy => .inr ?_⟩
      simp only [List.mem_cons, List.mem_append] at hy ⊢
      tauto
  · have hcross : ∀ y, y ∈ l :: (xs ++ [e]) → y ∈ h :: ys → False := by
      intro y hy hm
      rcases List.mem_cons.1 hy with rfl | hy
      · refine hlout ?_
        simp only [List.mem_cons, List.mem_append] at hm ⊢
        tauto
      · exact hfront y hy hm
    rintro v w vs ws y (rfl | rfl) (rfl | rfl) hv hw hyv hyw
    · rfl
    · rw [← Option.some.inj (hσl.symm.trans hv)] at hyv
      rw [← Option.some.inj (hσh.symm.trans hw)] at hyw
      exact (hcross y hyv hyw).elim
    · rw [← Option.some.inj (hσh.symm.trans hv)] at hyv
      rw [← Option.some.inj (hσl.symm.trans hw)] at hyw
      exact (hcross y hyw hyv).elim
    · rfl

theorem Stored.cutPosition (hs : Stored L σ) (hl : σ.Loose l) (hne : l ≠ h) (hx : σ h = some xs)
    (he : e ∈ h :: xs) : Stored (listCutPosition L l h e) (σ.cut l h e) := by
  have hr := hs.ring hx
  cases xs with
  | nil =>
    have hempty : listEmpty L h = true := (listEmpty_iff hr).2 rfl
    rw [listCutPosition, if_pos hempty, Lists.cut, hx]
    exact hs
  | cons x xs =>
    have hempty : ¬ listEmpty L h = true := fun h => List.cons_ne_nil x xs ((listEmpty_iff hr).1 h)
    have hcut : σ.cut l h e = if e = h then σ.set l [] else
        (σ.set l ((x :: xs).take ((x :: xs).idxOf e + 1))).set h
          ((x :: xs).drop ((x :: xs).idxOf e + 1)) := by
      rw [Lists.cut, hx]
    rw [listCutPosition, if_neg hempty, hcut]
    by_cases heh : e = h
    · rw [if_neg (by simp [heh]), if_pos heh, if_pos heh]
      exact hs.init hl
    · have hmem : e ∈ x :: xs := (List.mem_cons.1 he).resolve_left heh
      -- a single entry is the one the caller means
      have hsing : ¬ (listIsSingular L h && (decide (L.next h ≠ e) && decide (h ≠ e))) = true := by
        intro hc
        simp only [Bool.and_eq_true, decide_eq_true_iff] at hc
        obtain ⟨z, hz⟩ := (listIsSingular_iff hr).1 hc.1
        have hnext : L.next h = x := by simpa using hr.next_head.symm
        obtain ⟨rfl, rfl⟩ := List.cons.inj hz
        exact hc.2.1 (hnext.trans (List.mem_singleton.1 hmem).symm)
      rw [if_neg hsing, if_neg heh, if_neg heh]
      obtain ⟨as, bs, hsplit⟩ := List.append_of_mem hmem
      have has : e ∉ as := by
        have hnd := (List.nodup_cons.1 hr.nodup).2
        rw [hsplit] at hnd
        exact fun hm => List.disjoint_of_nodup_append hnd hm List.mem_cons_self
      have hidx : (as ++ e :: bs).idxOf e = as.length := by
        rw [List.idxOf_append_of_notMem has, List.idxOf_cons_self, Nat.add_zero]
      have hcat : as ++ e :: bs = (as ++ [e]) ++ bs := by simp
      have hlen : (as ++ [e]).length = as.length + 1 := List.length_append
      rw [hsplit, hidx, hcat, List.take_left' hlen, List.drop_left' hlen]
      exact hs.cutRaw hl hne (hx.trans (congrArg some hsplit))

/-- A node that has been replaced is loose. -/
theorem Stored.swap_loose (hs : Stored L σ) (ho : σ.On old ∨ σ.Head old) (hf : σ.Free new) :
    (σ.swap old new).Loose old := by
  intro v vs hv hvo hm
  cases hx : σ old with
  | some xs =>
    have hnew := hf old xs hx
    rw [Lists.swap, hx] at hv
    by_cases hvn : v = new
    · subst hvn
      change Function.update _ v _ v = _ at hv
      rw [Function.update_self] at hv
      rw [← Option.some.inj hv] at hm
      rcases List.mem_cons.1 hm with e | hm
      · exact hvo e.symm
      · exact (List.nodup_cons.1 (hs.ring hx).nodup).1 hm
    · change Function.update _ new _ v = _ at hv
      rw [Function.update_of_ne hvn, Function.update_of_ne hvo] at hv
      exact hvo (hs.meet hx hv hm List.mem_cons_self)
  | none =>
    obtain ⟨h, xs, hx', hmem⟩ := ho.resolve_right (by simp [Lists.Head, hx])
    have hne : new ≠ old := fun e => hf h xs hx' (e ▸ List.mem_cons_of_mem h hmem)
    rw [Lists.swap, hx] at hv
    obtain ⟨ws, -, rfl⟩ := Option.map_eq_some_iff.1 hv
    rcases List.mem_cons.1 hm with e | hm
    · exact hvo e.symm
    · obtain ⟨y, -, hy⟩ := List.mem_map.1 hm
      by_cases hyo : y = old
      · rw [if_pos hyo] at hy
        exact hne hy
      · rw [if_neg hyo] at hy
        exact hyo hy

theorem Stored.replaceInit (hs : Stored L σ) (ho : σ.On old ∨ σ.Head old) (hf : σ.Free new) :
    Stored (listReplaceInit L old new) ((σ.swap old new).set old []) :=
  (hs.replace ho hf).init (hs.swap_loose ho hf)

/-! ## A node that is alone on its list -/

theorem Lists.Unlinked.free (hu : σ.Unlinked x) : (σ.forget x).Free x := by
  intro h xs hx hm
  by_cases he : h = x
  · subst he
    rw [Lists.forget, Function.update_self] at hx
    cases hx
  · rw [Lists.forget, Function.update_of_ne he] at hx
    exact he (hu h xs hx hm).1

/-- Fewer lists are still stored. -/
theorem Stored.forget (hs : Stored L σ) (x : P) : Stored L (σ.forget x) := by
  have hsub : ∀ {h xs}, σ.forget x h = some xs → σ h = some xs := by
    intro h xs hx
    by_cases he : h = x
    · rw [he, Lists.forget, Function.update_self] at hx
      cases hx
    · rwa [Lists.forget, Function.update_of_ne he] at hx
  exact ⟨fun hx => hs.ring (hsub hx), fun hx hx' => hs.apart (hsub hx) (hsub hx')⟩

/-- The entries of the other lists stay entries. -/
theorem Lists.On.forget (ho : σ.On x) (hu : σ.Unlinked new) : (σ.forget new).On x := by
  obtain ⟨h, xs, hx, hm⟩ := ho
  refine ⟨h, xs, (Function.update_of_ne ?_ ..).trans hx, hm⟩
  rintro rfl
  rw [(hu h xs hx List.mem_cons_self).2] at hm
  exact absurd hm List.not_mem_nil

/-! ## Programs -/

/-- **One call.** -/
theorem Stored.call (hs : Stored L σ) {op : ListOp P} (ha : op.Allowed σ) :
    Stored (listCall L op) (onLists σ op) := by
  cases op with
  | init list => exact hs.init ha
  | add new head => exact (hs.forget new).add ha.1.free ha.2
  | addTail new head => exact (hs.forget new).addTail ha.1.free ha.2
  | del entry => exact hs.del ha
  | delInit entry => exact hs.delInit ha
  | move list head => exact hs.move ha.1 ha.2
  | moveTail list head => exact hs.moveTail ha.1 ha.2
  | replace old new =>
    exact (hs.forget new).replace (ha.1.imp_left fun ho => ho.forget ha.2) ha.2.free
  | replaceInit old new =>
    exact (hs.forget new).replaceInit (ha.1.imp_left fun ho => ho.forget ha.2) ha.2.free
  | splice list head => exact (hs.splice_front ha.1 ha.2.1 ha.2.2).1
  | spliceTail list head => exact (hs.splice_tail ha.1 ha.2.1 ha.2.2).1
  | spliceInit list head => exact (hs.splice_front ha.1 ha.2.1 ha.2.2).2
  | spliceTailInit list head => exact (hs.splice_tail ha.1 ha.2.1 ha.2.2).2
  | cutPosition list head entry =>
    obtain ⟨hl, hne, xs, hx, he⟩ := ha
    exact hs.cutPosition hl hne hx he

theorem Stored.calls {ops : List (ListOp P)} (hs : Stored L σ) (ha : AllowedAll σ ops) :
    Stored (listCalls L ops) (onListsAll σ ops) := by
  induction ops generalizing L σ with
  | nil => exact hs
  | cons op ops ih => exact ih (hs.call ha.1) ha.2

omit [DecidableEq P] in
theorem stored_none (L : Links P) : Stored L (fun _ => none : Lists P) where
  ring h := by cases h
  apart h := by cases h

/-- What a reader of the list `h` sees when its contents are `xs`. -/
structure Reads (L : Links P) (h : P) (xs : List P) : Prop where
  forward : ∀ (test : P → Bool) {fuel : Nat}, xs.length < fuel →
    L.scan h test fuel (L.next h) = some (xs.find? test)
  backward : ∀ (test : P → Bool) {fuel : Nat}, xs.length < fuel →
    L.swap.scan h test fuel (L.prev h) = some (xs.reverse.find? test)
  empty : listEmpty L h = true ↔ xs = []
  emptyCareful : listEmptyCareful L h = true ↔ xs = []
  singular : listIsSingular L h = true ↔ ∃ x, xs = [x]
  last : ∀ x ∈ xs, listIsLast L x h = true ↔ xs.getLast? = some x

theorem reads_of_ring (hr : LinkRing L h xs) : Reads L h xs where
  forward test _ hf := hr.scan test hf
  backward test _ hf := hr.swap.scan test (by rwa [List.length_reverse])
  empty := listEmpty_iff hr
  emptyCareful := listEmptyCareful_iff hr
  singular := listIsSingular_iff hr
  last x hx := by
    obtain ⟨as, bs, rfl⟩ := List.append_of_mem hx
    rw [listIsLast_iff hr]
    have hnd := (List.nodup_cons.1 hr.nodup).2
    rcases List.eq_nil_or_concat bs with rfl | ⟨cs, c, rfl⟩
    · simp
    · have hne : c ≠ x := by
        rintro rfl
        exact (List.nodup_cons.1 (List.nodup_append.1 hnd).2.1).1 (by simp)
      have hlast : (as ++ x :: cs.concat c).getLast? = some c := by
        rw [List.concat_eq_append, ← List.cons_append, ← List.append_assoc, List.getLast?_concat]
      rw [hlast, Option.some.injEq]
      simp [hne]

/-- **Programs over lists.** Starting from a store without lists, after any sequence of calls that find
what they expect, every list of the contents is a ring in the store, no two of them share a node, and
the walks and tests of the header read the contents. -/
theorem lists_lifetime (L : Links P) {ops : List (ListOp P)}
    (ha : AllowedAll (fun _ => none) ops) :
    let σ := onListsAll (fun _ => none) ops
    (∀ h xs, σ h = some xs → LinkRing (listCalls L ops) h xs ∧ Reads (listCalls L ops) h xs) ∧
      ∀ h h' xs xs', σ h = some xs → σ h' = some xs' → h ≠ h' → (h :: xs).Disjoint (h' :: xs') := by
  have hs := (stored_none L).calls ha
  exact ⟨fun h xs hx => ⟨hs.ring hx, reads_of_ring (hs.ring hx)⟩,
    fun h h' xs xs' hx hx' hne y hy hy' => hne (hs.apart hx hx' hy hy')⟩

/-- The node 2 goes to the list 0, is taken off it and put back, and goes with it into the list 1. -/
def shortProgram : List (ListOp Nat) :=
  [.init 0, .init 1, .add 2 0, .delInit 2, .add 2 0, .spliceInit 0 1]

theorem shortProgram_allowed : AllowedAll (fun _ => none) shortProgram := by
  have h2 : ∀ {xs : List Nat} {h : Nat}, h ≠ 2 → [] = xs → ¬ 2 ∈ h :: xs := by
    rintro xs h hne rfl hm
    exact hne (List.mem_singleton.1 hm).symm
  refine ⟨fun h xs hx => (nomatch hx), fun h xs hx hne => ?_, ⟨fun h xs hx hm => ?_, rfl⟩,
    ⟨0, [2], rfl, List.mem_singleton_self 2⟩, ⟨fun h xs hx hm => ?_, rfl⟩, ⟨rfl, rfl, by decide⟩, trivial⟩
  · rcases h with _ | h
    · obtain rfl : [] = xs := Option.some.inj hx
      decide
    · cases hx
  · rcases h with _ | _ | h
    · exact absurd hm (h2 (by decide) (Option.some.inj hx))
    · exact absurd hm (h2 (by decide) (Option.some.inj hx))
    · cases hx
  · rcases h with _ | _ | _ | h
    · exact absurd hm (h2 (by decide) (Option.some.inj hx))
    · exact absurd hm (h2 (by decide) (Option.some.inj hx))
    · exact ⟨rfl, (Option.some.inj hx).symm⟩
    · cases hx

theorem lists_lifetime_short : AllowedAll (fun _ => none) shortProgram ∧
    LinkRing (listCalls ⟨id, id⟩ shortProgram) 1 [2] :=
  ⟨shortProgram_allowed, ((lists_lifetime ⟨id, id⟩ shortProgram_allowed).1 1 [2] rfl).1⟩

end Hurlex
