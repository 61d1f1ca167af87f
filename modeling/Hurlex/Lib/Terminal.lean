import Mathlib.Logic.Function.Basic

/-!
# Terminals of endless height

A terminal `W` columns wide: a cursor, and rows without end below it. A window on it is a grid of
`H` rows that shows the terminal's rows from `top` on; **`Window.scroll`** moves it down by one.
-/

namespace Hurlex.Lib

structure Terminal (C : Type*) where
  cells : Nat → Nat → C
  x : Nat
  y : Nat

namespace Terminal

variable {C : Type*}

/-- What a character asks for. -/
inductive Act (C : Type*) where
  | back
  | tab
  | home
  | feed
  | put (c : C)
  | nothing

/-- All blank, the cursor in the corner. -/
def empty (blank : C) : Terminal C := ⟨fun _ _ => blank, 0, 0⟩

def setCell (cells : Nat → Nat → C) (y x : Nat) (c : C) : Nat → Nat → C :=
  Function.update cells y (Function.update (cells y) x c)

theorem setCell_apply (cells : Nat → Nat → C) (y x : Nat) (c : C) (i j : Nat) :
    setCell cells y x c i j = if i = y ∧ j = x then c else cells i j := by
  unfold setCell
  by_cases hi : i = y
  · subst hi
    rw [Function.update_self, Function.update_apply]
    simp only [true_and]
  · rw [Function.update_of_ne hi, if_neg fun h => hi h.1]

/-- The cursor's move, or the cell it leaves behind. -/
def move (t : Terminal C) : Act C → Terminal C
  | .back => { t with x := t.x - 1 }
  | .tab => { t with x := (t.x + 8) / 8 * 8 }
  | .home => { t with x := 0 }
  | .feed => { t with x := 0, y := t.y + 1 }
  | .put c => { t with cells := setCell t.cells t.y t.x c, x := t.x + 1 }
  | .nothing => t

/-- On to the next row at the end of one. -/
def wrap (W : Nat) (t : Terminal C) : Terminal C :=
  if t.x = W then { t with x := 0, y := t.y + 1 } else t

def act (W : Nat) (t : Terminal C) (a : Act C) : Terminal C := wrap W (t.move a)

def run (W : Nat) (t : Terminal C) (as : List (Act C)) : Terminal C := as.foldl (act W) t

variable {W H top : Nat} {blank c : C} {t : Terminal C} {a : Act C}

theorem run_cons (a : Act C) (as : List (Act C)) : run W t (a :: as) = run W (act W t a) as := rfl

theorem run_append (as bs : List (Act C)) : run W t (as ++ bs) = run W (run W t as) bs :=
  List.foldl_append ..

/-- The rows below the cursor have never been written to. -/
def Fresh (blank : C) (t : Terminal C) : Prop := ∀ i > t.y, ∀ j, t.cells i j = blank

theorem fresh_empty (blank : C) : Fresh blank (empty blank) := fun _ _ _ => rfl

theorem Fresh.act (h : Fresh blank t) : Fresh blank (act W t a) := by
  have hmove : Fresh blank (t.move a) := by
    cases a with
    | back | tab | home | nothing => exact h
    | feed => exact fun i hi => h i (Nat.lt_of_succ_lt hi)
    | put c =>
      intro i hi j
      show setCell t.cells t.y t.x c i j = blank
      rw [setCell_apply, if_neg fun hc => Nat.ne_of_gt hi hc.1]
      exact h i hi j
  unfold Terminal.act wrap
  split
  · exact fun i hi => hmove i (Nat.lt_of_succ_lt hi)
  · exact hmove

/-! ## Windows -/

/-- `grid` shows the rows of `t` from `top` on. -/
def Window (W H : Nat) (grid : Nat → Nat → C) (t : Terminal C) (top : Nat) : Prop :=
  ∀ i < H, ∀ j < W, grid i j = t.cells (top + i) j

variable {grid grid' : Nat → Nat → C}

/-- Writing the cell at the cursor in both. -/
theorem Window.put {r : Nat} (h : Window W H grid t top) (hr : t.y = top + r) :
    Window W H (setCell grid r t.x c) (t.move (.put c)) top := by
  intro i hi j hj
  show setCell grid r t.x c i j = setCell t.cells t.y t.x c (top + i) j
  rw [setCell_apply, setCell_apply, h i hi j hj, hr]
  have hiff : (i = r ∧ j = t.x) ↔ (top + i = top + r ∧ j = t.x) := by omega
  simp only [hiff]

/-- The rows move up, and a blank one comes in at the bottom. -/
theorem Window.scroll (h : Window W (H + 1) grid t top) (hfresh : Fresh blank t)
    (hy : t.y < top + (H + 1)) (hup : ∀ i < H, ∀ j < W, grid' i j = grid (i + 1) j)
    (hlast : ∀ j < W, grid' H j = blank) : Window W (H + 1) grid' t (top + 1) := by
  intro i hi j hj
  by_cases hiH : i < H
  · rw [hup i hiH j hj, h (i + 1) (by omega) j hj, Nat.add_right_comm, Nat.add_assoc]
  · obtain rfl : i = H := by omega
    rw [hlast j hj, hfresh _ (by omega)]

end Terminal

end Hurlex.Lib
