import Mathlib.Data.List.Sort
import Hurlex.Lib.Runs

/-!
# Maximal runs of a set of cells

`IsRun S r`: the segment `r` is a maximal run of consecutive cells of `S`. A separated list of segments
is the list of maximal runs of its cells (`Separated.isRun_iff`), every increasing list of cells is
that of one (`exists_separated`), and of one only (`Separated.ext`).
-/

namespace Hurlex.Lib

/-- A maximal run of cells of `S`. -/
structure IsRun (S : Set Nat) (r : Seg) : Prop where
  pos : 0 < r.2
  mem : ∀ i ∈ r.cells, i ∈ S
  before : ∀ i, i + 1 = r.1 → i ∉ S
  after : r.1 + r.2 ∉ S

variable {S : Set Nat} {l l' : List Seg} {r t : Seg} {i : Nat}

/-- A run starts where any other one with a common cell does. -/
theorem IsRun.start_le (hr : IsRun S r) (ht : IsRun S t) (hir : i ∈ r.cells) (hit : i ∈ t.cells) :
    r.1 ≤ t.1 := by
  rw [Seg.mem_cells] at hir hit
  by_contra hlt
  exact hr.before (r.1 - 1) (by omega) (ht.mem _ (Seg.mem_cells.2 ⟨by omega, by omega⟩))

theorem IsRun.end_le (hr : IsRun S r) (ht : IsRun S t) (hir : i ∈ r.cells) (hit : i ∈ t.cells) :
    r.1 + r.2 ≤ t.1 + t.2 := by
  rw [Seg.mem_cells] at hir hit
  by_contra hlt
  exact ht.after (hr.mem _ (Seg.mem_cells.2 ⟨by omega, by omega⟩))

/-- **Maximal runs with a common cell are the same.** -/
theorem IsRun.eq_of_mem (hr : IsRun S r) (ht : IsRun S t) (hir : i ∈ r.cells) (hit : i ∈ t.cells) :
    r = t := by
  have h1 := hr.start_le ht hir hit
  have h2 := ht.start_le hr hit hir
  have h3 := hr.end_le ht hir hit
  have h4 := ht.end_le hr hit hir
  exact Prod.ext (by omega) (by omega)

theorem IsRun.first_mem (hr : IsRun S r) : r.1 ∈ r.cells := Seg.first_mem hr.pos

/-- The cells of a list of segments, as a set. -/
def cellSet (l : List Seg) : Set Nat := {i | i ∈ cellsOf l}

theorem mem_cellSet : i ∈ cellSet l ↔ ∃ s ∈ l, i ∈ s.cells := mem_cellsOf

theorem Separated.isRun_of_mem (h : Separated l) (hr : r ∈ l) : IsRun (cellSet l) r := by
  obtain ⟨A, B, rfl⟩ := List.append_of_mem hr
  obtain ⟨-, hs, hA⟩ := Separated.append_iff.1 h
  obtain ⟨hpos, -, hB⟩ := Separated.cons_iff.1 hs
  have hno : ∀ i, i + 1 = r.1 ∨ i = r.1 + r.2 → i ∉ cellSet (A ++ r :: B) := by
    intro i hi hm
    obtain ⟨t, ht, hit⟩ := mem_cellSet.1 hm
    rw [Seg.mem_cells] at hit
    rcases List.mem_append.1 ht with ht | ht
    · have := hA t ht r List.mem_cons_self
      omega
    · rcases List.mem_cons.1 ht with rfl | ht
      · omega
      · have := hB t ht
        omega
  exact ⟨hpos, fun i hi => mem_cellSet.2 ⟨r, hr, hi⟩, fun i hi => hno i (Or.inl hi),
    hno _ (Or.inr rfl)⟩

/-- **The segments of a separated list are the maximal runs of its cells.** -/
theorem Separated.isRun_iff (h : Separated l) : IsRun (cellSet l) r ↔ r ∈ l := by
  refine ⟨fun hr => ?_, h.isRun_of_mem⟩
  obtain ⟨t, ht, hrt⟩ := mem_cellSet.1 (hr.mem _ hr.first_mem)
  rw [hr.eq_of_mem (h.isRun_of_mem ht) hr.first_mem hrt]
  exact ht

theorem Separated.increasing (h : Separated l) : l.Pairwise fun s t => s.1 < t.1 :=
  h.apart.imp fun hst => Nat.lt_of_le_of_lt (Nat.le_add_right ..) hst

/-- **The runs depend on the set of cells only.** -/
theorem Separated.ext (h : Separated l) (h' : Separated l') (he : cellSet l = cellSet l') :
    l = l' := by
  have nodup {l : List Seg} (h : Separated l) : l.Nodup :=
    h.increasing.imp fun {s t} (hlt : s.1 < t.1) (he : s = t) => Nat.ne_of_lt hlt (congrArg _ he)
  refine List.Perm.eq_of_pairwise (fun s t _ _ hst hts => absurd hst (Nat.lt_asymm hts))
    h.increasing h'.increasing ((List.perm_ext_iff_of_nodup (nodup h) (nodup h')).2 fun r => ?_)
  rw [← h.isRun_iff, he, h'.isRun_iff]

/-- The length noted down at a cell. -/
theorem Separated.headLen_eq (h : Separated l) (hr : r ∈ l) : headLen l r.1 = r.2 := by
  obtain ⟨A, B, rfl⟩ := List.append_of_mem hr
  exact h.headLen_head

/-- **Increasing cells are the cells of a separated list.** -/
theorem exists_separated : ∀ {cells : List Nat}, cells.Pairwise (· < ·) →
    ∃ l, Separated l ∧ cellsOf l = cells
  | [], _ => ⟨[], .nil, rfl⟩
  | c :: cells, h => by
    obtain ⟨hc, hcells⟩ := List.pairwise_cons.1 h
    obtain ⟨l, hl, rfl⟩ := exists_separated hcells
    have hB : ∀ t ∈ l, c + 1 ≤ t.1 := fun t ht =>
      hc t.1 (mem_cellsOf.2 ⟨t, ht, (hl.isRun_of_mem ht).first_mem⟩)
    exact ⟨giveBack [] (c, 1) l, giveBack_separated hl Nat.one_pos (by simp) hB,
      giveBack_cells [] (c, 1) l⟩

end Hurlex.Lib
