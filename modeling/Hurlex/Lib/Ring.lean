import Mathlib.Logic.Function.Basic

/-!
# Ring buffers

`N` cells, of which those from `front` up to `rear` are in use, around the end. Equal indices mean
that none is, so one cell always stays free and a full ring has `N - 1` elements.

**`contents_push`** and **`contents_pop`**: moving the indices on is a queue.
-/

namespace Hurlex.Lib.Ring

variable {α : Type*} {N front rear i : Nat} {buf : Nat → α} {a : α}

/-- The index behind `i`. -/
def next (N i : Nat) : Nat := (i + 1) % N

theorem next_eq (h : i < N) : next N i = if i + 1 = N then 0 else i + 1 := by
  unfold next
  split
  · next he => rw [he, Nat.mod_self]
  · exact Nat.mod_eq_of_lt (by omega)

/-- How many cells are in use. -/
def used (N front rear : Nat) : Nat := if front ≤ rear then rear - front else rear + N - front

/-- The cell `i` places behind `front`. -/
def cell (N front i : Nat) : Nat := if front + i < N then front + i else front + i - N

theorem cell_zero (hf : front < N) : cell N front 0 = front := if_pos hf

/-- The elements, the oldest first. -/
def contents (N : Nat) (buf : Nat → α) (front rear : Nat) : List α :=
  (List.range (used N front rear)).map fun i => buf (cell N front i)

theorem length_contents : (contents N buf front rear).length = used N front rear := by
  rw [contents, List.length_map, List.length_range]

/-- The ring is full when the next index runs into `front`. -/
theorem full_iff (hf : front < N) (hr : rear < N) :
    front = next N rear ↔ used N front rear = N - 1 := by
  rw [next_eq hr]
  unfold used
  split <;> split <;> omega

theorem contents_self : contents N buf front front = [] := by
  rw [contents, used, if_pos (Nat.le_refl _), Nat.sub_self]
  rfl

/-- A write behind the last element adds it. -/
theorem contents_push (hf : front < N) (hr : rear < N) (hroom : front ≠ next N rear) :
    contents N (Function.update buf rear a) front (next N rear) =
      contents N buf front rear ++ [a] := by
  rw [next_eq hr] at hroom ⊢
  have hused : used N front (if rear + 1 = N then 0 else rear + 1) = used N front rear + 1 := by
    unfold used
    split at hroom <;> rename_i h <;> simp only [h, if_true, if_false] <;> split <;> split <;> omega
  have hlast : cell N front (used N front rear) = rear := by
    unfold cell used
    split <;> split <;> omega
  rw [contents, hused, List.range_succ, List.map_append, List.map_singleton, hlast,
    Function.update_self, contents]
  congr 1
  refine List.map_congr_left fun i hi => Function.update_of_ne ?_ ..
  have hlt := List.mem_range.1 hi
  revert hlt
  unfold cell used
  split <;> split <;> omega

/-- Moving `front` on drops the first element. -/
theorem contents_pop (hf : front < N) (hr : rear < N) (hne : front ≠ rear) :
    contents N buf front rear = buf front :: contents N buf (next N front) rear := by
  have hused : used N front rear = used N (next N front) rear + 1 := by
    rw [next_eq hf]
    unfold used
    split <;> split <;> split <;> omega
  rw [contents, hused, List.range_succ_eq_map, List.map_cons, cell_zero hf, List.map_map, contents]
  congr 1
  refine List.map_congr_left fun i hi => congrArg buf ?_
  have hlt := List.mem_range.1 hi
  revert hlt
  rw [next_eq hf]
  unfold cell used
  split <;> split <;> split <;> split <;> omega

end Hurlex.Lib.Ring
