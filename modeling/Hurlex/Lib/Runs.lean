import Mathlib.Algebra.GroupWithZero.Nat
import Hurlex.Lib.Segment

/-!
# Separated runs of free cells

A free list kept in address order is a list of maximal runs. `Separated` is the invariant, `giveBack`
puts a run back between the runs before and after it and joins it to the ones it touches, and
`headLen l i` is the length of the run that starts at `i`: what an allocator notes down at the first
cell of each run, and `0` everywhere else.

Main results:

- `giveBack_separated`, `giveBack_cover`: giving back keeps the runs maximal and covers the same
  cells.
- `headLen_join`: which notes change when two runs are joined.
- `exists_split`: the place a run goes to.
-/

namespace Hurlex.Lib

/-- The cells of a segment, in order. -/
def Seg.pages (s : Seg) : List Nat := List.range' s.1 s.2

/-- The cells of a list of segments, in order. -/
def cellsOf (l : List Seg) : List Nat := l.flatMap Seg.pages

/-- Maximal runs in address order: none is empty, none touches the next. -/
structure Separated (l : List Seg) : Prop where
  pos : ∀ s ∈ l, 0 < s.2
  apart : l.Pairwise fun s t => s.1 + s.2 < t.1

/-- The length noted down at cell `i`. -/
def headLen : List Seg → Nat → Nat
  | [], _ => 0
  | s :: l, i => (if s.1 = i then s.2 else 0) + headLen l i

/-- The number of cells of the segments. -/
def total (l : List Seg) : Nat := (l.map Prod.snd).sum

theorem total_append (l₁ l₂ : List Seg) : total (l₁ ++ l₂) = total l₁ + total l₂ := by
  simp [total]

theorem total_cons (s : Seg) (l : List Seg) : total (s :: l) = s.2 + total l := by
  simp [total]

theorem cellsOf_length (l : List Seg) : (cellsOf l).length = total l := by
  simp [cellsOf, total, List.length_flatMap, Seg.pages]

theorem Seg.mem_pages {s : Seg} {i : Nat} : i ∈ s.pages ↔ i ∈ s.cells := by
  rw [Seg.pages, List.mem_range'_1, Seg.mem_cells]

theorem cellsOf_append (l₁ l₂ : List Seg) : cellsOf (l₁ ++ l₂) = cellsOf l₁ ++ cellsOf l₂ :=
  List.flatMap_append

theorem cellsOf_cons (s : Seg) (l : List Seg) : cellsOf (s :: l) = s.pages ++ cellsOf l := rfl

theorem mem_cellsOf {l : List Seg} {i : Nat} : i ∈ cellsOf l ↔ ∃ s ∈ l, i ∈ s.cells := by
  simp only [cellsOf, List.mem_flatMap, Seg.mem_pages]

/-- Two segments that touch hold the cells of their union, in order. -/
theorem pages_join (a m n : Nat) :
    Seg.pages (a, m) ++ Seg.pages (a + m, n) = Seg.pages (a, m + n) :=
  List.range'_append_1

/-- A nonempty segment starts with its first cell. -/
theorem pages_succ (a n : Nat) : Seg.pages (a, n + 1) = a :: Seg.pages (a + 1, n) :=
  List.range'_succ

theorem headLen_append (l₁ l₂ : List Seg) (i : Nat) :
    headLen (l₁ ++ l₂) i = headLen l₁ i + headLen l₂ i := by
  induction l₁ with
  | nil => simp [headLen]
  | cons s l ih => simp only [List.cons_append, headLen, ih, Nat.add_assoc]

theorem headLen_eq_zero {l : List Seg} {i : Nat} (h : ∀ s ∈ l, s.1 ≠ i) : headLen l i = 0 := by
  induction l with
  | nil => rfl
  | cons s l ih =>
    rw [headLen, if_neg (h s List.mem_cons_self),
      ih fun t ht => h t (List.mem_cons_of_mem _ ht)]

theorem headLen_le_total (l : List Seg) (i : Nat) : headLen l i ≤ total l := by
  induction l with
  | nil => exact Nat.zero_le _
  | cons s l ih =>
    rw [headLen, total_cons]
    split_ifs <;> omega

section Join

variable {X Y : List Seg} {p q m n : Nat}

/-- What two neighbours note down, in a list ordered by first cells. -/
theorem headLen_pair (hpq : p < q) (hX : ∀ t ∈ X, t.1 < p) (hY : ∀ t ∈ Y, q < t.1) :
    headLen (X ++ (p, m) :: (q, n) :: Y) p = m ∧ headLen (X ++ (p, m) :: (q, n) :: Y) q = n := by
  have zX : ∀ i, p ≤ i → headLen X i = 0 := fun i hi =>
    headLen_eq_zero fun t ht => by
      have := hX t ht
      omega
  have zY : ∀ i, i ≤ q → headLen Y i = 0 := fun i hi =>
    headLen_eq_zero fun t ht => by
      have := hY t ht
      omega
  simp only [headLen_append, headLen]
  rw [zX p le_rfl, zY p (by omega), zX q (by omega), zY q le_rfl, if_neg (by omega : ¬ p = q),
    if_neg (by omega : ¬ q = p)]
  simp

/-- Joining two neighbours changes what the first cells of the two note down. -/
theorem headLen_join (hpq : p < q) (hX : ∀ t ∈ X, t.1 < p) (hY : ∀ t ∈ Y, q < t.1) (i : Nat) :
    headLen (X ++ (p, m + n) :: Y) i = if i = q then 0 else if i = p then m + n
      else headLen (X ++ (p, m) :: (q, n) :: Y) i := by
  have zX : ∀ i, p ≤ i → headLen X i = 0 := fun i hi =>
    headLen_eq_zero fun t ht => by
      have := hX t ht
      omega
  have zY : ∀ i, i ≤ q → headLen Y i = 0 := fun i hi =>
    headLen_eq_zero fun t ht => by
      have := hY t ht
      omega
  simp only [headLen_append, headLen]
  by_cases h1 : i = q
  · rw [if_pos h1, zX i (by omega), zY i (by omega), if_neg (by omega)]
  · by_cases h2 : i = p
    · rw [if_neg h1, if_pos h2, zX i (by omega), zY i (by omega), if_pos h2.symm]
      omega
    · rw [if_neg h1, if_neg h2, if_neg (by omega), if_neg (by omega), if_neg (by omega)]
      omega

end Join

/-! ## Separated lists -/

namespace Separated

variable {l l₁ l₂ : List Seg} {s : Seg}

theorem nil : Separated [] := ⟨fun _ h => absurd h List.not_mem_nil, List.Pairwise.nil⟩

theorem singleton (h : 0 < s.2) : Separated [s] :=
  ⟨fun _ ht => List.mem_singleton.mp ht ▸ h, List.pairwise_singleton _ _⟩

theorem append_iff : Separated (l₁ ++ l₂) ↔
    Separated l₁ ∧ Separated l₂ ∧ ∀ s ∈ l₁, ∀ t ∈ l₂, s.1 + s.2 < t.1 := by
  constructor
  · rintro ⟨hpos, hap⟩
    obtain ⟨h1, h2, h3⟩ := List.pairwise_append.mp hap
    exact ⟨⟨fun s hs => hpos s (List.mem_append_left _ hs), h1⟩,
      ⟨fun s hs => hpos s (List.mem_append_right _ hs), h2⟩, h3⟩
  · rintro ⟨h1, h2, h3⟩
    refine ⟨fun s hs => ?_, List.pairwise_append.mpr ⟨h1.apart, h2.apart, h3⟩⟩
    rcases List.mem_append.mp hs with hs | hs
    · exact h1.pos s hs
    · exact h2.pos s hs

theorem cons_iff : Separated (s :: l) ↔
    0 < s.2 ∧ Separated l ∧ ∀ t ∈ l, s.1 + s.2 < t.1 := by
  constructor
  · rintro ⟨hpos, hap⟩
    obtain ⟨h1, h2⟩ := List.pairwise_cons.mp hap
    exact ⟨hpos s List.mem_cons_self, ⟨fun t ht => hpos t (List.mem_cons_of_mem _ ht), h2⟩, h1⟩
  · rintro ⟨h1, h2, h3⟩
    refine ⟨fun t ht => ?_, List.pairwise_cons.mpr ⟨h3, h2.apart⟩⟩
    rcases List.mem_cons.mp ht with rfl | ht
    · exact h1
    · exact h2.pos t ht

/-- The cells come in increasing order. -/
theorem sorted (h : Separated l) : (cellsOf l).Pairwise (· < ·) := by
  induction l with
  | nil => exact List.Pairwise.nil
  | cons s l ih =>
    obtain ⟨-, hl, hs⟩ := cons_iff.mp h
    rw [cellsOf_cons, List.pairwise_append]
    refine ⟨List.pairwise_lt_range', ih hl, fun i hi j hj => ?_⟩
    obtain ⟨t, ht, hjt⟩ := mem_cellsOf.mp hj
    have := hs t ht
    rw [Seg.mem_pages, Seg.mem_cells] at hi
    rw [Seg.mem_cells] at hjt
    omega

theorem nodup (h : Separated l) : (cellsOf l).Nodup := h.sorted.imp fun hlt => Nat.ne_of_lt hlt

/-- Separated runs in a range have no more cells than the range. -/
theorem total_le {hi : Nat} : ∀ {l : List Seg} {lo : Nat}, Separated l → lo ≤ hi →
    (∀ t ∈ l, lo ≤ t.1 ∧ t.1 + t.2 ≤ hi) → lo + total l ≤ hi
  | [], lo, _, hle, _ => hle
  | s :: l, lo, h, _, hb => by
    obtain ⟨-, hl, hs⟩ := cons_iff.mp h
    have h1 := hb s List.mem_cons_self
    have h2 := total_le hl h1.2 fun t ht =>
      ⟨(hs t ht).le, (hb t (List.mem_cons_of_mem _ ht)).2⟩
    rw [total_cons]
    omega

/-- The first cell of a run holds the run's length. -/
theorem headLen_head (h : Separated (l₁ ++ s :: l₂)) : headLen (l₁ ++ s :: l₂) s.1 = s.2 := by
  obtain ⟨-, hs, hx⟩ := append_iff.mp h
  obtain ⟨hpos, -, hy⟩ := cons_iff.mp hs
  rw [headLen_append, headLen, if_pos rfl, headLen_eq_zero, headLen_eq_zero]
  · omega
  · intro t ht
    have := hy t ht
    omega
  · intro t ht
    have := hx t ht s List.mem_cons_self
    omega

/-- The runs on either side of a cell-free gap that starts at `b`. -/
theorem exists_split {b : Nat} :
    ∀ {l : List Seg}, Separated l → (∀ t ∈ l, t.1 + t.2 ≤ b ∨ b < t.1) →
      ∃ A B, l = A ++ B ∧ (∀ t ∈ A, t.1 + t.2 ≤ b) ∧ ∀ t ∈ B, b < t.1
  | [], _, _ => ⟨[], [], rfl, by simp, by simp⟩
  | s :: l, h, hgap => by
    obtain ⟨-, hl, hs⟩ := cons_iff.mp h
    rcases hgap s List.mem_cons_self with hle | hlt
    · obtain ⟨A, B, rfl, hA, hB⟩ := exists_split hl fun t ht => hgap t (List.mem_cons_of_mem _ ht)
      refine ⟨s :: A, B, rfl, fun t ht => ?_, hB⟩
      rcases List.mem_cons.mp ht with rfl | ht
      · exact hle
      · exact hA t ht
    · refine ⟨[], s :: l, rfl, by simp, fun t ht => ?_⟩
      rcases List.mem_cons.mp ht with rfl | ht
      · exact hlt
      · have := hs t ht
        omega

end Separated

/-! ## Taking cells off the front -/

/-- What is left of the runs `s :: l` without the first `n` cells of `s`. -/
def takeFront (s : Seg) (n : Nat) (l : List Seg) : List Seg :=
  if n < s.2 then (s.1 + n, s.2 - n) :: l else l

section TakeFront

variable {s : Seg} {l : List Seg} {n : Nat}

theorem takeFront_separated (h : Separated (s :: l)) : Separated (takeFront s n l) := by
  obtain ⟨-, hl, hs⟩ := Separated.cons_iff.mp h
  unfold takeFront
  by_cases hn : n < s.2
  · rw [if_pos hn]
    refine Separated.cons_iff.mpr ⟨by simp only; omega, hl, fun t ht => ?_⟩
    have := hs t ht
    simp only
    omega
  · rw [if_neg hn]
    exact hl

theorem takeFront_cells (hn : n ≤ s.2) :
    cellsOf (s :: l) = Seg.pages (s.1, n) ++ cellsOf (takeFront s n l) := by
  unfold takeFront
  by_cases h : n < s.2
  · have := pages_join s.1 n (s.2 - n)
    rw [Nat.add_sub_cancel' hn] at this
    rw [if_pos h, cellsOf_cons, cellsOf_cons, ← List.append_assoc, this]
  · obtain rfl : n = s.2 := by omega
    rw [if_neg h]
    rfl

theorem takeFront_cover (hn : n ≤ s.2) (p : Nat) :
    cover ((s.1, n) :: takeFront s n l) p = cover (s :: l) p := by
  unfold takeFront
  by_cases h : n < s.2
  · have := cover_cut_cons hn s.1 l p
    rw [if_pos h]
    simp only [cover_cons] at this ⊢
    omega
  · obtain rfl : n = s.2 := by omega
    rw [if_neg h]

theorem takeFront_total (hn : n ≤ s.2) : n + total (takeFront s n l) = total (s :: l) := by
  unfold takeFront
  by_cases h : n < s.2
  · rw [if_pos h, total_cons, total_cons]
    omega
  · rw [if_neg h, total_cons]
    omega

theorem takeFront_bound {N : Nat} (hin : ∀ u ∈ s :: l, u.1 + u.2 ≤ N) :
    ∀ u ∈ takeFront s n l, u.1 + u.2 ≤ N := by
  intro u hu
  unfold takeFront at hu
  split_ifs at hu
  · rcases List.mem_cons.mp hu with rfl | hu
    · have := hin s List.mem_cons_self
      simp only
      omega
    · exact hin u (List.mem_cons_of_mem _ hu)
  · exact hin u (List.mem_cons_of_mem _ hu)

/-- The notes change at the old first cell and at the new one only. -/
theorem takeFront_headLen (h : Separated (s :: l)) (hn : 0 < n) (i : Nat) :
    headLen (takeFront s n l) i =
      if i = s.1 then 0 else if n < s.2 ∧ i = s.1 + n then s.2 - n else headLen (s :: l) i := by
  obtain ⟨-, hl, hs⟩ := Separated.cons_iff.mp h
  have hz : ∀ j, j ≤ s.1 + s.2 → headLen l j = 0 := fun j hj =>
    headLen_eq_zero fun t ht => by
      have := hs t ht
      omega
  have h1 := hz s.1 (by omega)
  unfold takeFront
  by_cases hlt : n < s.2
  · have h2 := hz (s.1 + n) (by omega)
    rw [if_pos hlt]
    simp only [headLen]
    split_ifs <;> grind
  · rw [if_neg hlt]
    simp only [headLen]
    split_ifs <;> grind

end TakeFront

/-! ## Giving a run back -/

/-- The run `s` and the runs `B` behind it, joined to the first of them when they touch. -/
def joinNext (s : Seg) : List Seg → List Seg
  | [] => [s]
  | t :: B => if s.1 + s.2 = t.1 then (s.1, s.2 + t.2) :: B else s :: t :: B

/-- The runs `A` in front of the run `s`, the last of them joined to it when they touch. -/
def joinPrev (A : List Seg) (s : Seg) : List Seg :=
  match A.getLast? with
  | some r => if r.1 + r.2 = s.1 then A.dropLast ++ [(r.1, r.2 + s.2)] else A ++ [s]
  | none => [s]

/-- The runs after `s` is given back between `A` and `B`. -/
def giveBack (A : List Seg) (s : Seg) (B : List Seg) : List Seg :=
  match joinNext s B with
  | [] => A
  | t :: B' => joinPrev A t ++ B'

section GiveBack

variable {A B : List Seg} {s : Seg}

theorem joinPrev_nil (s : Seg) : joinPrev [] s = [s] := rfl

theorem joinPrev_concat (A : List Seg) (r s : Seg) : joinPrev (A ++ [r]) s =
    if r.1 + r.2 = s.1 then A ++ [(r.1, r.2 + s.2)] else A ++ [r] ++ [s] := by
  simp [joinPrev]

theorem joinNext_cons (s t : Seg) (B : List Seg) : joinNext s (t :: B) =
    if s.1 + s.2 = t.1 then (s.1, s.2 + t.2) :: B else s :: t :: B := rfl

theorem giveBack_nil (A : List Seg) (s : Seg) : giveBack A s [] = joinPrev A s := by
  simp [giveBack, joinNext]

theorem giveBack_cons (A : List Seg) (s t : Seg) (B : List Seg) : giveBack A s (t :: B) =
    if s.1 + s.2 = t.1 then joinPrev A (s.1, s.2 + t.2) ++ B else joinPrev A s ++ t :: B := by
  unfold giveBack joinNext
  by_cases h : s.1 + s.2 = t.1
  · simp only [if_pos h]
  · simp only [if_neg h]

theorem joinPrev_cover (A : List Seg) (s : Seg) (p : Nat) :
    cover (joinPrev A s) p = cover (A ++ [s]) p := by
  rcases List.eq_nil_or_concat A with rfl | ⟨A, r, rfl⟩
  · rfl
  · rw [List.concat_eq_append, joinPrev_concat]
    by_cases h : r.1 + r.2 = s.1
    · have := cover_cut r.1 r.2 s.2 p
      rw [if_pos h, cover_append, this, List.append_assoc, cover_append, h]
      rfl
    · rw [if_neg h]

/-- **Giving a run back covers its cells and no others anew.** -/
theorem giveBack_cover (A : List Seg) (s : Seg) (B : List Seg) (p : Nat) :
    cover (giveBack A s B) p = cover (s :: (A ++ B)) p := by
  have hperm : (A ++ [s] ++ B).Perm (s :: (A ++ B)) := by
    rw [List.append_assoc]
    exact List.perm_middle
  rw [← cover_perm hperm]
  cases B with
  | nil => rw [giveBack_nil, joinPrev_cover, List.append_nil]
  | cons t B =>
    rw [giveBack_cons]
    by_cases h : s.1 + s.2 = t.1
    · have := cover_cut s.1 s.2 t.2 p
      rw [if_pos h, cover_append, joinPrev_cover, cover_append, this, h]
      simp only [cover_append, cover_cons, cover_nil]
      omega
    · rw [if_neg h, cover_append, joinPrev_cover, cover_append (A ++ [s])]

theorem joinPrev_separated (hA : Separated A) (hs : 0 < s.2)
    (hlt : ∀ t ∈ A, t.1 + t.2 ≤ s.1) :
    Separated (joinPrev A s) ∧ ∀ t ∈ joinPrev A s, t.1 + t.2 ≤ s.1 + s.2 := by
  rcases List.eq_nil_or_concat A with rfl | ⟨A, r, rfl⟩
  · rw [joinPrev_nil]
    exact ⟨.singleton hs, fun t ht => by rw [List.mem_singleton.mp ht]⟩
  · rw [List.concat_eq_append] at *
    obtain ⟨hA', hr, hlast⟩ := Separated.append_iff.mp hA
    have hpos := hr.pos r List.mem_cons_self
    have hrs := hlt r (by simp)
    rw [joinPrev_concat]
    by_cases h : r.1 + r.2 = s.1
    · rw [if_pos h]
      refine ⟨Separated.append_iff.mpr ⟨hA', .singleton (by simp only; omega), ?_⟩, fun t ht => ?_⟩
      · intro t ht u hu
        rw [List.mem_singleton.mp hu]
        exact hlast t ht r List.mem_cons_self
      · rcases List.mem_append.mp ht with ht | ht
        · have := hlt t (List.mem_append_left _ ht)
          omega
        · rw [List.mem_singleton.mp ht]
          simp only
          omega
    · rw [if_neg h]
      refine ⟨Separated.append_iff.mpr ⟨hA, .singleton hs, ?_⟩, fun t ht => ?_⟩
      · intro t ht u hu
        rw [List.mem_singleton.mp hu]
        rcases List.mem_append.mp ht with ht | ht
        · have := hlast t ht r List.mem_cons_self
          omega
        · rw [List.mem_singleton.mp ht]
          omega
      · rcases List.mem_append.mp ht with ht | ht
        · have := hlt t ht
          omega
        · rw [List.mem_singleton.mp ht]

/-- **Giving a run back keeps the runs maximal.** -/
theorem giveBack_separated (h : Separated (A ++ B)) (hs : 0 < s.2)
    (hA : ∀ t ∈ A, t.1 + t.2 ≤ s.1) (hB : ∀ t ∈ B, s.1 + s.2 ≤ t.1) :
    Separated (giveBack A s B) := by
  obtain ⟨hsA, hsB, hAB⟩ := Separated.append_iff.mp h
  cases B with
  | nil =>
    rw [giveBack_nil]
    exact (joinPrev_separated hsA hs hA).1
  | cons t B =>
    obtain ⟨htpos, hsB', hlt⟩ := Separated.cons_iff.mp hsB
    have hst := hB t List.mem_cons_self
    rw [giveBack_cons]
    by_cases htouch : s.1 + s.2 = t.1
    · have hj := joinPrev_separated (s := (s.1, s.2 + t.2)) hsA (by simp only; omega) hA
      rw [if_pos htouch]
      refine Separated.append_iff.mpr ⟨hj.1, hsB', fun u hu v hv => ?_⟩
      have h1 := hj.2 u hu
      have h2 := hlt v hv
      simp only at h1
      omega
    · have hj := joinPrev_separated hsA hs hA
      rw [if_neg htouch]
      refine Separated.append_iff.mpr ⟨hj.1, hsB, fun u hu v hv => ?_⟩
      have h1 := hj.2 u hu
      rcases List.mem_cons.mp hv with rfl | hv
      · omega
      · have h2 := hlt v hv
        omega

theorem joinPrev_cells (A : List Seg) (s : Seg) :
    cellsOf (joinPrev A s) = cellsOf A ++ s.pages := by
  rcases List.eq_nil_or_concat A with rfl | ⟨A, r, rfl⟩
  · simp [joinPrev_nil, cellsOf]
  · rw [List.concat_eq_append, joinPrev_concat]
    by_cases h : r.1 + r.2 = s.1
    · rw [if_pos h, cellsOf_append, cellsOf_append, List.append_assoc]
      have := pages_join r.1 r.2 s.2
      rw [h] at this
      simp [cellsOf, ← this]
    · rw [if_neg h, cellsOf_append]
      simp [cellsOf]

/-- The cells in order, with those of `s` in their place. -/
theorem giveBack_cells (A : List Seg) (s : Seg) (B : List Seg) :
    cellsOf (giveBack A s B) = cellsOf A ++ (s.pages ++ cellsOf B) := by
  cases B with
  | nil =>
    rw [giveBack_nil, joinPrev_cells]
    simp [cellsOf]
  | cons t B =>
    rw [giveBack_cons, cellsOf_cons]
    by_cases h : s.1 + s.2 = t.1
    · have := pages_join s.1 s.2 t.2
      rw [h] at this
      rw [if_pos h, cellsOf_append, joinPrev_cells, ← this]
      simp
    · rw [if_neg h, cellsOf_append, joinPrev_cells, cellsOf_cons]
      simp

/-- What is given back lies in the range the runs lie in. -/
theorem giveBack_inside {N : Nat} (hsep : Separated (giveBack A s B)) (hs : s.1 + s.2 ≤ N)
    (hAB : ∀ t ∈ A ++ B, t.1 + t.2 ≤ N) : ∀ t ∈ giveBack A s B, t.1 + t.2 ≤ N := by
  intro t ht
  have hpos := hsep.pos t ht
  have hlast : t.1 + t.2 - 1 ∈ cellsOf (giveBack A s B) :=
    mem_cellsOf.mpr ⟨t, ht, Seg.mem_cells.mpr ⟨by omega, by omega⟩⟩
  rw [giveBack_cells, List.mem_append, List.mem_append, mem_cellsOf, mem_cellsOf, Seg.mem_pages,
    Seg.mem_cells] at hlast
  rcases hlast with ⟨u, hu, hc⟩ | hc | ⟨u, hu, hc⟩
  · have := hAB u (List.mem_append_left _ hu)
    rw [Seg.mem_cells] at hc
    omega
  · omega
  · have := hAB u (List.mem_append_right _ hu)
    rw [Seg.mem_cells] at hc
    omega

/-- The run `s` joined to the run behind it, and what is left behind that. -/
theorem giveBack_next (A : List Seg) (s : Seg) (B : List Seg) :
    ∃ m B', joinNext s B = (s.1, m) :: B' ∧ giveBack A s B = joinPrev A (s.1, m) ++ B' ∧
      s.2 ≤ m ∧ (∀ t ∈ B', t ∈ B) ∧ (m = s.2 ∨ ∃ t ∈ B, s.1 + m = t.1 + t.2) := by
  cases B with
  | nil => exact ⟨s.2, [], rfl, by rw [giveBack_nil, List.append_nil], le_rfl, by simp, Or.inl rfl⟩
  | cons t B =>
    rw [joinNext_cons, giveBack_cons]
    by_cases h : s.1 + s.2 = t.1
    · rw [if_pos h, if_pos h]
      exact ⟨_, B, rfl, rfl, by omega, fun u hu => List.mem_cons_of_mem _ hu,
        Or.inr ⟨t, List.mem_cons_self, by omega⟩⟩
    · rw [if_neg h, if_neg h]
      exact ⟨s.2, t :: B, rfl, rfl, le_rfl, fun u hu => hu, Or.inl rfl⟩

theorem giveBack_total (A : List Seg) (s : Seg) (B : List Seg) :
    total (giveBack A s B) = total A + (s.2 + total B) := by
  have hlen : (Seg.pages s).length = s.2 := by simp [Seg.pages]
  rw [← cellsOf_length, giveBack_cells, List.length_append, List.length_append, cellsOf_length,
    cellsOf_length, hlen]

end GiveBack

end Hurlex.Lib
