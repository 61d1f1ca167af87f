import Mathlib.Data.List.Chain
import Mathlib.Data.List.Perm.Basic
import Mathlib.Order.Interval.Set.Defs
import Mathlib.Order.Disjoint
import Mathlib.Data.Set.Disjoint
import Mathlib.Data.Set.BooleanAlgebra
import Mathlib.Order.CompletePartialOrder

/-!
# Segments of a line of cells

A `Seg` is a first cell and a number of cells. Two ways to say that segments share out a range:

* `Tiles lo hi l`: the segments of `l`, in this order, follow one another without a gap from `lo`
  to `hi`. Right for a list kept in address order. A tiling in which no two neighbours are unmarked
  is known by its marked tiles (`tiles_ext`).
* `cover l p`: how many segments of `l` hold the cell `p`. Additive over `++` and blind to order
  (`cover_append`, `cover_perm`), and cutting a segment in two changes nothing (`cover_cut`). A
  collection shares out a range when every cell of it is covered once and no other cell is
  (`Exact`), whatever the order and whatever list the segments sit on. `Exact.disjoint` and
  `Exact.mem_iff` read the usual statement off.
-/

namespace Hurlex.Lib

/-- First cell and number of cells. -/
abbrev Seg := Nat × Nat

/-- The cells of a segment. -/
def Seg.cells (s : Seg) : Set Nat := Set.Ico s.1 (s.1 + s.2)

theorem Seg.mem_cells {s : Seg} {p : Nat} : p ∈ s.cells ↔ s.1 ≤ p ∧ p < s.1 + s.2 := Iff.rfl

theorem Seg.first_mem {s : Seg} (h : 0 < s.2) : s.1 ∈ s.cells :=
  Seg.mem_cells.mpr ⟨le_rfl, Nat.lt_add_of_pos_right h⟩

/-! ## Tilings -/

/-- The segments follow one another from `lo` to `hi`. -/
def Tiles (lo hi : Nat) : List Seg → Prop
  | [] => lo = hi
  | s :: l => s.1 = lo ∧ Tiles (lo + s.2) hi l

theorem tiles_append {lo hi : Nat} {l₂ : List Seg} :
    ∀ {l₁ : List Seg}, Tiles lo hi (l₁ ++ l₂) ↔ ∃ mid, Tiles lo mid l₁ ∧ Tiles mid hi l₂ := by
  intro l₁
  induction l₁ generalizing lo with
  | nil => simp [Tiles]
  | cons s l ih =>
    simp only [List.cons_append, Tiles, ih]
    constructor
    · rintro ⟨h, mid, h1, h2⟩
      exact ⟨mid, ⟨h, h1⟩, h2⟩
    · rintro ⟨mid, ⟨h, h1⟩, h2⟩
      exact ⟨h, mid, h1, h2⟩

theorem Tiles.le {lo hi : Nat} : ∀ {l : List Seg}, Tiles lo hi l → lo ≤ hi
  | [], h => Nat.le_of_eq h
  | s :: _, h => (Nat.le_add_right lo s.2).trans (Tiles.le h.2)

/-- Every tile lies in the range. -/
theorem Tiles.bounds {lo hi : Nat} {s : Seg} :
    ∀ {l : List Seg}, Tiles lo hi l → s ∈ l → lo ≤ s.1 ∧ s.1 + s.2 ≤ hi
  | t :: l, h, hs => by
    rcases List.mem_cons.mp hs with rfl | hs
    · have := h.2.le
      have := h.1
      omega
    · have := Tiles.bounds h.2 hs
      omega

/-- Tiles lie one after the other. -/
theorem Tiles.pairwise {lo hi : Nat} :
    ∀ {l : List Seg}, Tiles lo hi l → l.Pairwise fun s t => s.1 + s.2 ≤ t.1
  | [], _ => List.Pairwise.nil
  | s :: l, h => by
    refine List.pairwise_cons.mpr ⟨fun t ht => ?_, Tiles.pairwise h.2⟩
    have := h.2.bounds ht
    have := h.1
    omega

/-- Segments one of which ends where the other starts, or before, share no cell. -/
theorem Seg.disjoint_of_le {s t : Seg} (h : s.1 + s.2 ≤ t.1) : Disjoint s.cells t.cells := by
  rw [Set.disjoint_left]
  intro p hs ht
  rw [Seg.mem_cells] at hs ht
  omega

/-- Behind an unmarked tile comes a marked one, or the end of the range. -/
theorem tiles_head_start {α : Type} {seg : α → Seg} {marked : α → Bool} {a : α} {l : List α}
    {mid hi : Nat} (h : Tiles mid hi (l.map seg))
    (hc : (a :: l).IsChain fun a b => marked a = true ∨ marked b = true) (ha : marked a = false) :
    mid = ((l.filter marked).head?.map fun b => (seg b).1).getD hi := by
  cases l with
  | nil => exact h
  | cons b l =>
    have hb : marked b = true := ((List.isChain_cons_cons.mp hc).1).resolve_left (by simp [ha])
    rw [List.filter_cons_of_pos hb]
    exact h.1.symm

/-- **A tiling is known by its marked tiles** when no two neighbours are unmarked: what lies between
two marked tiles, or between one and an end of the range, is then one tile or nothing. -/
theorem tiles_ext {α : Type} {seg : α → Seg} {marked : α → Bool} (hpos : ∀ a, 0 < (seg a).2)
    (hinj : ∀ a b, seg a = seg b → marked a = marked b → a = b) {lo hi : Nat} :
    ∀ {l₁ l₂ : List α}, Tiles lo hi (l₁.map seg) → Tiles lo hi (l₂.map seg) →
      l₁.IsChain (fun a b => marked a = true ∨ marked b = true) →
      l₂.IsChain (fun a b => marked a = true ∨ marked b = true) →
      l₁.filter marked = l₂.filter marked → l₁ = l₂
  | [], [], _, _, _, _, _ => rfl
  | [], b :: l₂, h₁, h₂, _, _, _ => by
    have hle := h₂.2.le
    have heq : lo = hi := h₁
    have := hpos b
    omega
  | a :: l₁, [], h₁, h₂, _, _, _ => by
    have hle := h₁.2.le
    have heq : lo = hi := h₂
    have := hpos a
    omega
  | a :: l₁, b :: l₂, h₁, h₂, hc₁, hc₂, hf => by
    have hab : a = b := by
      by_cases ha : marked a <;> by_cases hb : marked b
      · rw [List.filter_cons_of_pos ha, List.filter_cons_of_pos hb] at hf
        exact (List.cons.inj hf).1
      · -- the marked `a` would be a tile behind `b`
        rw [List.filter_cons_of_pos ha, List.filter_cons_of_neg hb] at hf
        have hmem : a ∈ l₂ := List.mem_of_mem_filter (hf ▸ List.mem_cons_self)
        have := h₂.2.bounds (List.mem_map_of_mem hmem)
        have := hpos b
        have := h₁.1
        omega
      · rw [List.filter_cons_of_neg ha, List.filter_cons_of_pos hb] at hf
        have hmem : b ∈ l₁ := List.mem_of_mem_filter (hf ▸ List.mem_cons_self)
        have := h₁.2.bounds (List.mem_map_of_mem hmem)
        have := hpos a
        have := h₂.1
        omega
      · -- both end where the next marked tile starts
        rw [List.filter_cons_of_neg ha, List.filter_cons_of_neg hb] at hf
        have hend : lo + (seg a).2 = lo + (seg b).2 := by
          rw [tiles_head_start h₁.2 hc₁ (by simpa using ha),
            tiles_head_start h₂.2 hc₂ (by simpa using hb), hf]
        refine hinj a b (Prod.ext (h₁.1.trans h₂.1.symm) (by omega)) ?_
        simp only [ha, hb]
    subst hab
    refine congrArg (a :: ·) (tiles_ext hpos hinj h₁.2 h₂.2 hc₁.tail hc₂.tail ?_)
    by_cases ha : marked a
    · rw [List.filter_cons_of_pos ha, List.filter_cons_of_pos ha] at hf
      exact (List.cons.inj hf).2
    · rwa [List.filter_cons_of_neg ha, List.filter_cons_of_neg ha] at hf

/-! ## Coverage -/

/-- The number of segments that hold cell `p`. -/
def cover (l : List Seg) (p : Nat) : Nat :=
  l.countP fun s => decide (s.1 ≤ p ∧ p < s.1 + s.2)

@[simp] theorem cover_nil (p : Nat) : cover [] p = 0 := rfl

theorem cover_cons (s : Seg) (l : List Seg) (p : Nat) :
    cover (s :: l) p = cover l p + if s.1 ≤ p ∧ p < s.1 + s.2 then 1 else 0 := by
  simp [cover, List.countP_cons]

theorem cover_append (l₁ l₂ : List Seg) (p : Nat) :
    cover (l₁ ++ l₂) p = cover l₁ p + cover l₂ p := by
  simp [cover]

theorem cover_perm {l₁ l₂ : List Seg} (h : l₁.Perm l₂) (p : Nat) : cover l₁ p = cover l₂ p :=
  h.countP_eq _

/-- **Cutting a segment in two covers the same cells.** -/
theorem cover_cut (a m n p : Nat) : cover [(a, m + n)] p = cover [(a, m), (a + m, n)] p := by
  simp only [cover_cons, cover_nil]
  split <;> split <;> split <;> omega

/-- A segment among others, cut behind its first `m` cells. -/
theorem cover_cut_cons {m n : Nat} (h : m ≤ n) (a : Nat) (l : List Seg) (p : Nat) :
    cover ((a, n) :: l) p = cover ((a + m, n - m) :: (a, m) :: l) p := by
  have hcut := cover_cut a m (n - m) p
  rw [Nat.add_sub_cancel' h] at hcut
  simp only [cover_cons, cover_nil] at hcut ⊢
  omega

theorem cover_pos {l : List Seg} {p : Nat} : 0 < cover l p ↔ ∃ s ∈ l, p ∈ s.cells := by
  simp [cover, List.countP_pos_iff, Seg.mem_cells]

theorem cover_le_of_sublist {l₁ l₂ : List Seg} (h : l₁.Sublist l₂) (p : Nat) :
    cover l₁ p ≤ cover l₂ p :=
  h.countP_le

/-- Segments that cover no cell twice are pairwise disjoint. -/
theorem pairwise_disjoint_of_cover_le_one :
    ∀ {l : List Seg}, (∀ p, cover l p ≤ 1) → l.Pairwise fun s t => Disjoint s.cells t.cells
  | [], _ => List.Pairwise.nil
  | s :: l, h => by
    refine List.pairwise_cons.mpr ⟨fun t ht => ?_, ?_⟩
    · rw [Set.disjoint_left]
      intro p hs hp
      have h1 := h p
      have h2 : 0 < cover l p := cover_pos.mpr ⟨t, ht, hp⟩
      rw [cover_cons, if_pos (Seg.mem_cells.mp hs)] at h1
      omega
    · refine pairwise_disjoint_of_cover_le_one fun p => ?_
      exact (cover_le_of_sublist (List.sublist_cons_self s l) p).trans (h p)

/-- The segments share out the cells `0, …, n - 1`: each is covered once, no other is. -/
def Exact (n : Nat) (l : List Seg) : Prop := ∀ p, cover l p = if p < n then 1 else 0

namespace Exact

variable {n : Nat} {l : List Seg}

theorem of_perm {l' : List Seg} (h : Exact n l) (hp : l.Perm l') : Exact n l' :=
  fun p => (cover_perm hp p).symm.trans (h p)

/-- The segments of an exact collection are pairwise disjoint. -/
theorem disjoint (h : Exact n l) : l.Pairwise fun s t => Disjoint s.cells t.cells := by
  refine pairwise_disjoint_of_cover_le_one fun p => ?_
  rw [h p]
  split <;> omega

/-- The segments of an exact collection together hold exactly the cells of the range. -/
theorem mem_iff (h : Exact n l) (p : Nat) : p < n ↔ ∃ s ∈ l, p ∈ s.cells := by
  rw [← cover_pos, h p]
  split <;> omega

/-- A nonempty segment of an exact collection lies in the range. -/
theorem bound {s : Seg} (h : Exact n l) (hs : s ∈ l) (hpos : 0 < s.2) : s.1 + s.2 ≤ n := by
  have hlast : s.1 + s.2 - 1 ∈ s.cells := Seg.mem_cells.mpr ⟨by omega, by omega⟩
  have := (h.mem_iff _).mpr ⟨s, hs, hlast⟩
  omega

end Exact

/-- The segments lie in the first `n` cells, no cell in two of them. -/
def Fits (n : Nat) (l : List Seg) : Prop := ∀ p, cover l p ≤ if p < n then 1 else 0

theorem Exact.fits {n : Nat} {l₁ l₂ : List Seg} (h : Exact n (l₁ ++ l₂)) : Fits n l₁ := by
  intro p
  have := h p
  rw [cover_append] at this
  omega

namespace Fits

variable {n : Nat} {l : List Seg} {s : Seg}

theorem bound (h : Fits n l) (hs : s ∈ l) (hpos : 0 < s.2) : s.1 + s.2 ≤ n := by
  have hlast : s.1 + s.2 - 1 ∈ s.cells := Seg.mem_cells.mpr ⟨by omega, by omega⟩
  have h1 := cover_pos.mpr ⟨s, hs, hlast⟩
  have h2 := h (s.1 + s.2 - 1)
  split_ifs at h2 <;> omega

theorem tail (h : Fits n (s :: l)) : Fits n l := by
  intro p
  have := h p
  rw [cover_cons] at this
  omega

theorem cut {a m k : Nat} (h : Fits n ((a, k) :: l)) (hm : m ≤ k) :
    Fits n ((a + m, k - m) :: (a, m) :: l) :=
  fun p => (cover_cut_cons hm a l p).symm.le.trans (h p)

theorem disjoint (h : Fits n l) : l.Pairwise fun s t => Disjoint s.cells t.cells := by
  refine pairwise_disjoint_of_cover_le_one fun p => (h p).trans ?_
  split <;> omega

/-- A segment in the range that shares no cell with the others fits in. -/
theorem cons (h : Fits n l) (hs : s.1 + s.2 ≤ n) (hd : ∀ t ∈ l, Disjoint s.cells t.cells) :
    Fits n (s :: l) := by
  intro p
  have hp := h p
  rw [cover_cons]
  by_cases hps : p ∈ s.cells
  · have hz : cover l p = 0 := by
      by_contra hne
      obtain ⟨t, ht, hpt⟩ := cover_pos.mp (Nat.pos_of_ne_zero hne)
      exact Set.disjoint_left.mp (hd t ht) hps hpt
    rw [Seg.mem_cells] at hps
    rw [hz, if_pos hps, if_pos (by omega)]
  · rw [if_neg (mt Seg.mem_cells.mpr hps)]
    exact hp

theorem of_disjoint : ∀ {l : List Seg}, (l.Pairwise fun s t => Disjoint s.cells t.cells) →
    (∀ s ∈ l, s.1 + s.2 ≤ n) → Fits n l
  | [], _, _ => fun p => Nat.zero_le _
  | _ :: _, hd, hb => by
    obtain ⟨hs, hd⟩ := List.pairwise_cons.mp hd
    exact (of_disjoint hd fun t ht => hb t (List.mem_cons_of_mem _ ht)).cons
      (hb _ List.mem_cons_self) hs

/-- A segment of its own holds no cell of the others. -/
theorem notMem (h : Fits n (s :: l)) {t : Seg} (ht : t ∈ l) {p : Nat} (hp : p ∈ t.cells) :
    p ∉ s.cells := by
  intro hs
  have h1 := h p
  have h2 := cover_pos.mpr ⟨t, ht, hp⟩
  rw [cover_cons, if_pos (Seg.mem_cells.mp hs)] at h1
  split_ifs at h1 <;> omega

end Fits

end Hurlex.Lib
