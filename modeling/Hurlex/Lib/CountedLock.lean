import Mathlib.Data.Fintype.Card
import Mathlib.Data.Finset.Insert
import Mathlib.Logic.Function.Iterate

/-!
# A lock that counts its takers

One cell, decremented by everyone who wants the lock. The decrement that leaves the cell
non-negative wins; the others look at the cell until it is positive again, and then decrement once
more. The holder opens the lock by a plain store.

The cell is any type with the five operations of `Counter`. Whether the lock excludes depends on
how many decrements in a row the cell can tell apart, `Faithful`: the threads are then at most that
many (`exclusive_run`), and one more is enough to break it (`crowd_breaks`).
-/

namespace Hurlex.Lib.CountedLock

/-- What a lock cell can do. -/
structure Counter (C : Type*) where
  free : C
  dec : C → C
  unlock : C → C
  neg : C → Bool
  nonpos : C → Bool

/-- Where a thread is. `tested` and `looked` carry what the last test said. -/
inductive Pc where
  | outside
  | take
  | tested (neg : Bool)
  | look
  | looked (nonpos : Bool)
  | holds
  deriving DecidableEq, Repr

@[ext] structure State (C T : Type*) where
  cell : C
  pc : T → Pc

variable {C T : Type*}

/-- One step of a thread, on the cell and on its own place. -/
def turn (m : Counter C) (c : C) : Pc → C × Pc
  | .outside => (c, .take)
  | .take => (m.dec c, .tested (m.neg (m.dec c)))
  | .tested true => (c, .look)
  | .tested false => (c, .holds)
  | .look => (c, .looked (m.nonpos c))
  | .looked true => (c, .look)
  | .looked false => (c, .take)
  | .holds => (m.unlock c, .outside)

/-- The decrement of this thread won the lock, and the lock has not been opened since. -/
def Pc.won : Pc → Bool
  | .tested false => true
  | .holds => true
  | _ => false

/-- Where a thread can be that has decremented since the lock was last opened. -/
def Pc.counted : Pc → Bool
  | .tested _ => true
  | .look => true
  | .looked true => true
  | .holds => true
  | _ => false

section Run

variable [DecidableEq T] (m : Counter C)

/-- The cell written, and one thread moved. -/
def State.put (s : State C T) (t : T) (x : C × Pc) : State C T where
  cell := x.1
  pc := Function.update s.pc t x.2

def State.step (s : State C T) (t : T) : State C T := s.put t (turn m s.cell (s.pc t))

/-- The open lock, nobody near it. -/
def start : State C T := ⟨m.free, fun _ => .outside⟩

/-- A run: the threads in the order in which they make their steps. -/
def run (ts : List T) : State C T := ts.foldl (State.step m) (start m)

end Run

/-- At most one thread holds the lock. -/
def State.Exclusive (s : State C T) : Prop :=
  ∀ t u, s.pc t = .holds → s.pc u = .holds → t = u

/-- The cell tells up to `n` decrements in a row apart from none, and the first from the rest. -/
structure Faithful (m : Counter C) (n : Nat) : Prop where
  open_free : m.nonpos m.free = false
  neg_one : m.neg (m.dec m.free) = false
  neg_dec : ∀ k, 2 ≤ k → k ≤ n → m.neg (m.dec^[k] m.free) = true
  nonpos_dec : ∀ k, 1 ≤ k → k ≤ n → m.nonpos (m.dec^[k] m.free) = true
  unlock_dec : ∀ k, k ≤ n → m.unlock (m.dec^[k] m.free) = m.free

/-- `K` is the threads that decremented since the lock was last opened. -/
structure Inv (m : Counter C) (s : State C T) (K : Finset T) : Prop where
  cell : s.cell = m.dec^[K.card] m.free
  counted : ∀ t ∈ K, (s.pc t).counted = true
  won_mem : ∀ t, (s.pc t).won = true → t ∈ K
  won_eq : ∀ t u, (s.pc t).won = true → (s.pc u).won = true → t = u
  won_exists : K.Nonempty → ∃ t, (s.pc t).won = true

variable {m : Counter C} {s : State C T} {K : Finset T} {t : T} {n : Nat}

theorem start_inv [DecidableEq T] : Inv m (start m : State C T) ∅ where
  cell := rfl
  counted := by simp
  won_mem := fun _ h => absurd h (by simp [start, Pc.won])
  won_eq := fun _ _ h => absurd h (by simp [start, Pc.won])
  won_exists := fun h => absurd h (by simp)

/-! ## A step -/

section Step

variable [DecidableEq T]

@[simp] theorem put_cell (s : State C T) (t : T) (x : C × Pc) : (s.put t x).cell = x.1 := rfl

@[simp] theorem put_pc_self (s : State C T) (t : T) (x : C × Pc) : (s.put t x).pc t = x.2 :=
  Function.update_self ..

theorem put_pc_of_ne (s : State C T) {t u : T} (x : C × Pc) (hu : u ≠ t) :
    (s.put t x).pc u = s.pc u := Function.update_of_ne hu ..

/-- A step that neither decrements nor opens the lock, and changes no winner. -/
theorem Inv.move (h : Inv m s K) {p : Pc} (hw : p.won = (s.pc t).won)
    (hc : t ∈ K → p.counted = true) : Inv m (s.put t (s.cell, p)) K := by
  have hwon : ∀ u, ((s.put t (s.cell, p)).pc u).won = (s.pc u).won := by
    intro u
    by_cases hu : u = t
    · subst hu; rw [put_pc_self, hw]
    · rw [put_pc_of_ne s _ hu]
  refine ⟨h.cell, fun u hu => ?_, fun u hu => ?_, fun u v hu hv => ?_, fun hn => ?_⟩
  · by_cases ht : u = t
    · subst ht; rw [put_pc_self]; exact hc hu
    · rw [put_pc_of_ne s _ ht]; exact h.counted u hu
  · exact h.won_mem u ((hwon u).symm.trans hu)
  · exact h.won_eq u v ((hwon u).symm.trans hu) ((hwon v).symm.trans hv)
  · obtain ⟨u, hu⟩ := h.won_exists hn
    exact ⟨u, (hwon u).trans hu⟩

/-- A decrement by a thread that is not among the counted ones. It wins exactly when it is the
first. -/
theorem Inv.take (h : Inv m s K) (ht : t ∉ K)
    (hneg : m.neg (m.dec^[K.card + 1] m.free) = decide (K.Nonempty)) :
    Inv m (s.put t (m.dec s.cell, .tested (m.neg (m.dec s.cell)))) (insert t K) := by
  have hcell : m.dec s.cell = m.dec^[K.card + 1] m.free := by
    rw [h.cell, Function.iterate_succ_apply']
  rw [hcell, hneg]
  set s' := s.put t (m.dec^[K.card + 1] m.free, .tested (decide K.Nonempty)) with hs'
  have hold : ∀ u, u ≠ t → s'.pc u = s.pc u := fun u hu => put_pc_of_ne s _ hu
  have hnew : s'.pc t = .tested (decide K.Nonempty) := put_pc_self ..
  have hwon : (s'.pc t).won = true ↔ ¬ K.Nonempty := by
    rw [hnew]
    by_cases hk : K.Nonempty <;> simp [hk, Pc.won]
  -- with a counted thread there is a winner already; with none there was no winner
  have hnone : ¬ K.Nonempty → ∀ u, (s.pc u).won = true → False :=
    fun hk u hu => hk ⟨u, h.won_mem u hu⟩
  constructor
  · rw [Finset.card_insert_of_notMem ht]; rfl
  · intro u hu
    by_cases hut : u = t
    · subst hut; rw [hnew]; rfl
    · rw [hold u hut]
      exact h.counted u (Finset.mem_of_mem_insert_of_ne hu hut)
  · intro u hu
    by_cases hut : u = t
    · exact hut ▸ Finset.mem_insert_self t K
    · rw [hold u hut] at hu
      exact Finset.mem_insert_of_mem (h.won_mem u hu)
  · intro u v hu hv
    by_cases hut : u = t <;> by_cases hvt : v = t
    · rw [hut, hvt]
    · subst hut
      rw [hold v hvt] at hv
      exact (hnone (hwon.1 hu) v hv).elim
    · subst hvt
      rw [hold u hut] at hu
      exact (hnone (hwon.1 hv) u hu).elim
    · rw [hold u hut] at hu
      rw [hold v hvt] at hv
      exact h.won_eq u v hu hv
  · intro _
    by_cases hk : K.Nonempty
    · obtain ⟨u, hu⟩ := h.won_exists hk
      refine ⟨u, ?_⟩
      rw [hold u fun hut => ht (hut ▸ h.won_mem u hu)]
      exact hu
    · exact ⟨t, hwon.2 hk⟩

/-- The holder opens the lock: nobody is counted any more. -/
theorem Inv.open (h : Inv m s K) (ht : s.pc t = .holds)
    (hopen : m.unlock (m.dec^[K.card] m.free) = m.free) :
    Inv m (s.put t (m.unlock s.cell, .outside)) ∅ := by
  have hnone : ∀ u, ((s.put t (m.unlock s.cell, .outside)).pc u).won = true → False := by
    intro u hu
    by_cases hut : u = t
    · subst hut
      rw [put_pc_self] at hu
      exact absurd hu (by simp [Pc.won])
    · rw [put_pc_of_ne s _ hut] at hu
      exact hut (h.won_eq u t hu (by rw [ht]; rfl))
  refine ⟨?_, by simp, fun u hu => (hnone u hu).elim, fun u _ hu => (hnone u hu).elim,
    fun hk => absurd hk (by simp)⟩
  show m.unlock s.cell = _
  rw [h.cell, hopen]
  rfl

/-- **The invariant is kept**, whoever makes the next step. -/
theorem Inv.step [Fintype T] (hm : Faithful m (Fintype.card T)) (h : Inv m s K) (t : T) :
    ∃ K', Inv m (s.step m t) K' := by
  have hout : (s.pc t).counted = false → t ∉ K := fun hc hk => by
    simp [h.counted t hk] at hc
  have hcard : K.card ≤ Fintype.card T := Finset.card_le_univ K
  unfold State.step
  match hp : s.pc t with
  | .outside => exact ⟨K, h.move (by rw [hp]; rfl) fun hk => absurd hk (hout (by rw [hp]; rfl))⟩
  | .take =>
    have ht : t ∉ K := hout (by rw [hp]; rfl)
    refine ⟨insert t K, h.take ht ?_⟩
    have hlt : K.card + 1 ≤ Fintype.card T := by
      rw [← Finset.card_insert_of_notMem ht]
      exact Finset.card_le_univ _
    by_cases hk : K.Nonempty
    · have := hk.card_pos
      rw [hm.neg_dec _ (by omega) hlt, decide_eq_true hk]
    · rw [decide_eq_false hk, Finset.not_nonempty_iff_eq_empty.1 hk]
      exact hm.neg_one
  | .tested true => exact ⟨K, h.move (by rw [hp]; rfl) fun _ => rfl⟩
  | .tested false => exact ⟨K, h.move (by rw [hp]; rfl) fun _ => rfl⟩
  | .look =>
    refine ⟨K, h.move (by rw [hp]; cases m.nonpos s.cell <;> rfl) fun hk => ?_⟩
    have hpos := Finset.card_pos.2 ⟨t, hk⟩
    rw [h.cell, hm.nonpos_dec _ (by omega) hcard]
    rfl
  | .looked true => exact ⟨K, h.move (by rw [hp]; rfl) fun _ => rfl⟩
  | .looked false =>
    exact ⟨K, h.move (by rw [hp]; rfl) fun hk => absurd hk (hout (by rw [hp]; rfl))⟩
  | .holds => exact ⟨∅, h.open hp (hm.unlock_dec _ hcard)⟩

/-! ## Runs -/

theorem Inv.foldl [Fintype T] (hm : Faithful m (Fintype.card T)) (ts : List T)
    (h : ∃ K, Inv m s K) : ∃ K, Inv m (ts.foldl (State.step m) s) K := by
  induction ts generalizing s with
  | nil => exact h
  | cons t ts ih =>
    obtain ⟨K, hK⟩ := h
    exact ih (hK.step hm t)

theorem run_inv [Fintype T] (hm : Faithful m (Fintype.card T)) (ts : List T) :
    ∃ K, Inv m (run m ts) K := Inv.foldl hm ts ⟨∅, start_inv⟩

/-- **The lock excludes**: as many threads as the cell can count, in any order of steps. -/
theorem exclusive_run [Fintype T] (hm : Faithful m (Fintype.card T)) (ts : List T) :
    (run m ts).Exclusive := by
  obtain ⟨K, hK⟩ := run_inv hm ts
  exact fun t u ht hu => hK.won_eq t u (by rw [ht]; rfl) (by rw [hu]; rfl)

/-- **The lock is not lost**: somebody has won it, or the cell is that of the open lock. -/
theorem run_won_or_free [Fintype T] (hm : Faithful m (Fintype.card T)) (ts : List T) :
    (∃ t, ((run m ts).pc t).won = true) ∨ (run m ts).cell = m.free := by
  obtain ⟨K, hK⟩ := run_inv hm ts
  by_cases hk : K.Nonempty
  · exact .inl (hK.won_exists hk)
  · right
    rw [hK.cell, Finset.not_nonempty_iff_eq_empty.1 hk]
    rfl

/-- An open lock goes to whoever wants it and runs alone, in five steps at the most. -/
theorem acquires (hfree : m.nonpos m.free = false) (hone : m.neg (m.dec m.free) = false)
    (hs : s.cell = m.free) (ht : s.pc t ≠ .outside) (hw : (s.pc t).won = false) :
    ∃ n ≤ 5, (((fun s => State.step m s t)^[n]) s).pc t = .holds := by
  match hp : s.pc t with
  | .outside => exact absurd hp ht
  | .take => exact ⟨2, by omega, by simp [State.step, hp, turn, hs, hone]⟩
  | .tested true => exact ⟨5, by omega, by simp [State.step, hp, turn, hs, hone, hfree]⟩
  | .tested false => simp [hp, Pc.won] at hw
  | .look => exact ⟨4, by omega, by simp [State.step, hp, turn, hs, hone, hfree]⟩
  | .looked true => exact ⟨5, by omega, by simp [State.step, hp, turn, hs, hone, hfree]⟩
  | .looked false => exact ⟨3, by omega, by simp [State.step, hp, turn, hs, hone]⟩
  | .holds => simp [hp, Pc.won] at hw

/-! ## Too many threads -/

/-- Two steps bring a thread from outside past its decrement. -/
theorem step_step (hs : s.pc t = .outside) : ((s.step m t).step m t) =
    s.put t (m.dec s.cell, .tested (m.neg (m.dec s.cell))) := by
  have h1 : s.step m t = s.put t (s.cell, .take) := by rw [State.step, hs]; rfl
  rw [h1, State.step, put_pc_self]
  ext u
  · rfl
  · by_cases hu : u = t
    · subst hu; rw [put_pc_self, put_pc_self]; rfl
    · rw [put_pc_of_ne _ _ hu, put_pc_of_ne _ _ hu, put_pc_of_ne _ _ hu]

/-- Threads that come in one after the other, each up to the test of its own decrement. -/
theorem crowd (us : List T) (hn : us.Nodup) (hs : s.cell = m.dec^[n] m.free)
    (hout : ∀ t ∈ us, s.pc t = .outside) :
    (∀ t ∉ us, ((us.flatMap fun t => [t, t]).foldl (State.step m) s).pc t = s.pc t) ∧
    ∀ i (hi : i < us.length), ((us.flatMap fun t => [t, t]).foldl (State.step m) s).pc us[i] =
      .tested (m.neg (m.dec^[n + i + 1] m.free)) := by
  induction us generalizing s n with
  | nil => exact ⟨fun _ _ => rfl, fun i hi => absurd hi (by simp)⟩
  | cons t us ih =>
    obtain ⟨ht, hn⟩ := List.nodup_cons.1 hn
    have hcell : m.dec s.cell = m.dec^[n + 1] m.free := by rw [hs, Function.iterate_succ_apply']
    have hfold : ((t :: us).flatMap fun t => [t, t]).foldl (State.step m) s =
        (us.flatMap fun t => [t, t]).foldl (State.step m)
          (s.put t (m.dec s.cell, .tested (m.neg (m.dec s.cell)))) := by
      rw [← step_step (hout t (List.mem_cons_self ..))]
      rfl
    have hput : ∀ u ∈ us, (s.put t (m.dec s.cell, .tested (m.neg (m.dec s.cell)))).pc u =
        .outside := by
      intro u hu
      have hut : u ≠ t := fun h => ht (h ▸ hu)
      rw [put_pc_of_ne s _ hut]
      exact hout u (List.mem_cons_of_mem t hu)
    rw [hfold]
    obtain ⟨hrest, hus⟩ := ih hn hcell hput
    refine ⟨fun u hu => ?_, fun i hi => ?_⟩
    · rw [hrest u fun h => hu (List.mem_cons_of_mem t h)]
      exact put_pc_of_ne s _ (List.ne_of_not_mem_cons hu)
    · cases i with
      | zero =>
        refine (hrest t ht).trans ?_
        rw [put_pc_self, hcell]
      | succ i =>
        rw [show n + (i + 1) + 1 = n + 1 + i + 1 by omega]
        exact hus i (by simpa using hi)

/-- **A count the cell gets wrong breaks the lock**: enough threads, each decrementing before any
of them goes on. -/
theorem crowd_breaks [Fintype T] (hone : m.neg (m.dec m.free) = false) (h2 : 2 ≤ n)
    (hn : n ≤ Fintype.card T) (hneg : m.neg (m.dec^[n] m.free) = false) :
    ∃ ts : List T, ¬ (run m ts).Exclusive := by
  obtain ⟨K, -, hK⟩ := Finset.exists_subset_card_eq (s := (Finset.univ : Finset T)) hn
  have hlen : K.toList.length = n := K.length_toList.trans hK
  obtain ⟨-, hus⟩ := crowd (m := m) (s := start m) (n := 0) K.toList K.nodup_toList rfl
    fun _ _ => rfl
  set s := run m (K.toList.flatMap fun t => [t, t]) with hs
  set a := K.toList[0]
  set b := K.toList[n - 1]
  have hab : a ≠ b := fun h => by
    have := (List.Nodup.getElem_inj_iff K.nodup_toList).1 h
    omega
  have ha : s.pc a = .tested false := by
    have h := hus 0 (by omega)
    rwa [show m.neg (m.dec^[0 + 0 + 1] m.free) = false from hone] at h
  have hb : s.pc b = .tested false := by
    have h := hus (n - 1) (by omega)
    rwa [show 0 + (n - 1) + 1 = n by omega, hneg] at h
  refine ⟨(K.toList.flatMap fun t => [t, t]) ++ [a, b], fun hex => hab (hex a b ?_ ?_)⟩
  · rw [run, List.foldl_append]
    show ((s.step m a).step m b).pc a = .holds
    rw [State.step, put_pc_of_ne _ _ hab, State.step, put_pc_self, ha]
    rfl
  · rw [run, List.foldl_append]
    show ((s.step m a).step m b).pc b = .holds
    rw [State.step, put_pc_self, State.step, put_pc_of_ne _ _ hab.symm, hb]
    rfl

end Step

end Hurlex.Lib.CountedLock
