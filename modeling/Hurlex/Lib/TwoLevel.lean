import Mathlib.Logic.Function.Basic

/-!
# Two-level tables

A directory names a table for some of its indices, and the tables hold the entries. Two directory
indices may name the same table; a write through one is then seen through the other.

**`get_put`** says which entries a write changes, **`Unshared.get_put`** that it is one entry when
no table has two names, and `Unshared.attach` that naming a table nothing else names keeps it so.
-/

namespace Hurlex.Lib.TwoLevel

variable {I J F W : Type*}

structure Tables (I J F W : Type*) where
  dir : I → Option F
  leaf : F → J → W

variable {t : Tables I J F W} {i i' : I} {j j' : J} {f f' : F} {w : W}

/-- The entry `j` of the table of `i`, if `i` has one. -/
def get (t : Tables I J F W) (i : I) (j : J) : Option W := (t.dir i).map fun f => t.leaf f j

theorem get_of_dir (h : t.dir i = some f) (j : J) : get t i j = some (t.leaf f j) := by
  rw [get, h, Option.map_some]

theorem get_of_none (h : t.dir i = none) (j : J) : get t i j = none := by
  rw [get, h, Option.map_none]

/-- No table has two names. -/
def Unshared (t : Tables I J F W) : Prop :=
  ∀ ⦃i i' f⦄, t.dir i = some f → t.dir i' = some f → i = i'

/-! ## Naming a table -/

section Attach

variable [DecidableEq I]

/-- Name a table. -/
def attach (t : Tables I J F W) (i : I) (f : F) : Tables I J F W :=
  { t with dir := Function.update t.dir i (some f) }

theorem dir_attach_self : (attach t i f).dir i = some f := Function.update_self ..

theorem dir_attach_of_ne (h : i' ≠ i) : (attach t i f).dir i' = t.dir i' :=
  Function.update_of_ne h ..

theorem get_attach : get (attach t i f) i' j' =
    if i' = i then some (t.leaf f j') else get t i' j' := by
  by_cases h : i' = i
  · subst h
    rw [get_of_dir dir_attach_self, if_pos rfl]
    rfl
  · rw [if_neg h, get, dir_attach_of_ne h]
    rfl

theorem Unshared.attach (h : Unshared t) (hf : ∀ i', t.dir i' ≠ some f) :
    Unshared (attach t i f) := by
  intro a b g ha hb
  by_cases hai : a = i <;> by_cases hbi : b = i
  · rw [hai, hbi]
  · rw [hai, dir_attach_self] at ha
    rw [dir_attach_of_ne hbi, ← ha] at hb
    exact absurd hb (hf b)
  · rw [hbi, dir_attach_self] at hb
    rw [dir_attach_of_ne hai, ← hb] at ha
    exact absurd ha (hf a)
  · rw [dir_attach_of_ne hai] at ha
    rw [dir_attach_of_ne hbi] at hb
    exact h ha hb

end Attach

/-! ## Writing an entry -/

section Put

variable [DecidableEq J] [DecidableEq F]

/-- Write an entry of a table. -/
def put (t : Tables I J F W) (f : F) (j : J) (w : W) : Tables I J F W :=
  { t with leaf := Function.update t.leaf f (Function.update (t.leaf f) j w) }

@[simp] theorem dir_put : (put t f j w).dir = t.dir := rfl

/-- A write is seen wherever the table is named, and nowhere else. -/
theorem get_put : get (put t f j w) i' j' =
    if t.dir i' = some f ∧ j' = j then some w else get t i' j' := by
  cases hd : t.dir i' with
  | none => rw [get_of_none hd, get_of_none (by rw [dir_put, hd]), if_neg (by simp)]
  | some f' =>
    rw [get_of_dir hd, get_of_dir (by rw [dir_put, hd])]
    by_cases hf : f' = f
    · subst hf
      by_cases hj : j' = j
      · subst hj
        simp [put]
      · simp [put, hj]
    · simp [put, hf]

/-- **One write, one entry.** -/
theorem Unshared.get_put [DecidableEq I] (h : Unshared t) (hi : t.dir i = some f) :
    get (put t f j w) i' j' = if i' = i ∧ j' = j then some w else get t i' j' := by
  rw [TwoLevel.get_put]
  by_cases hii : i' = i
  · subst hii
    simp [hi]
  · rw [if_neg fun hc => hii (h hc.1 hi), if_neg fun hc => hii hc.1]

theorem Unshared.put (h : Unshared t) : Unshared (put t f j w) := h

end Put

end Hurlex.Lib.TwoLevel
