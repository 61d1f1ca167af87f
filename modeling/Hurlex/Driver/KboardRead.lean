import Hurlex.Driver.KboardQueue
import Mathlib.Data.List.GetD

/-!
# Reading from the keyboard

`kb_read` of `driver/kboard.c` and the loop of `getchar` in `kernel/kio.c`. `keyboard_handler` also
queues a 0 for a key without a character, and 0 is how `kb_getchar` says that the queue is empty.
`kb_read` therefore stops at such a byte, which `kb_getchar` has taken out by then, and `getchar`
waits for the next interrupt in front of a queue with keys in it.

A call is taken as one step here: interrupts in between only add bytes behind those it looks at.

**`reader_iff`**: a call delivers what it should when no 0 is queued in front of what is due.
-/

namespace Hurlex.Kboard

open Lib

/-- The loop of `kb_read` with `n` bytes to go: the device, the buffer and `i` afterwards. -/
def kbReadFrom (d : KboardDevice) (buffer : Nat → Byte) (i : Nat) :
    Nat → KboardDevice × (Nat → Byte) × Nat
  | 0 => (d, buffer, i)
  | n + 1 =>
    let (d, ch) := kbGetchar d
    if ch ≠ 0 then kbReadFrom d (Function.update buffer i ch) (i + 1) n else (d, buffer, i)

/-- `kb_read`: the device and the buffer afterwards, and what it returns. -/
def kbRead (d : KboardDevice) (dec : Nat → Byte) (len : Nat) : KboardDevice × (Nat → Byte) × Nat :=
  kbReadFrom d dec 0 len

/-- A turn of `getchar`'s loop: `none` when it goes to `cpu_hlt`. -/
def getcharTurn (d : KboardDevice) (ch : Byte) : KboardDevice × Option Byte :=
  let r := kbRead d (fun _ => ch) 1
  (r.1, if r.2.2 = 0 then none else some (r.2.1 0))

/-- The characters waiting, the oldest first. -/
def KboardDevice.chars (d : KboardDevice) : List Byte := d.pending.filter fun b => decide (b ≠ 0)

/-- The bytes in front of the first 0. -/
def KboardDevice.ready (d : KboardDevice) : List Byte :=
  d.pending.takeWhile fun b => decide (b ≠ 0)

variable {d d' : KboardDevice} {ch : Byte} {cs : List Byte} {buffer : Nat → Byte} {i n len : Nat}

/-! ## What a call takes -/

theorem kbGetchar_nil (h : d.InRange) (hp : d.pending = []) : kbGetchar d = (d, 0) := by
  unfold kbGetchar
  rw [if_neg]
  intro hne
  rw [KboardDevice.pending, Ring.contents_pop h.kfront h.krear hne] at hp
  exact List.cons_ne_nil _ _ hp

theorem kbGetchar_cons (h : d.InRange) (hp : d.pending = ch :: cs) :
    ∃ d', kbGetchar d = (d', ch) ∧ d'.InRange ∧ d'.pending = cs := by
  have hne : d.kfront ≠ d.krear := by
    intro he
    rw [KboardDevice.pending, he, Ring.contents_self] at hp
    exact List.cons_ne_nil _ _ hp.symm
  have hpop := @Ring.contents_pop _ _ _ _ d.kbuffer h.kfront h.krear hne
  rw [KboardDevice.pending, hpop, List.cons.injEq] at hp
  refine ⟨{ d with kfront := bump d.kfront }, ?_, ⟨bump_lt _, h.krear⟩, ?_⟩
  · unfold kbGetchar
    rw [if_pos hne, hp.1]
  · rw [KboardDevice.pending, bump_eq]
    exact hp.2

/-- **`kb_read` delivers the bytes in front of the first 0.** -/
theorem kbReadFrom_spec (h : d.InRange) :
    (kbReadFrom d buffer i n).2.2 = i + min n d.ready.length ∧
      ∀ a, (kbReadFrom d buffer i n).2.1 a =
        if i ≤ a ∧ a < i + min n d.ready.length then d.ready.getD (a - i) 0 else buffer a := by
  induction n generalizing d buffer i with
  | zero =>
    refine ⟨by rw [Nat.zero_min]; rfl, fun a => ?_⟩
    rw [Nat.zero_min, if_neg (by omega)]
    rfl
  | succ n ih =>
    unfold kbReadFrom
    cases hp : d.pending with
    | nil =>
      have hready : d.ready = [] := by rw [KboardDevice.ready, hp, List.takeWhile_nil]
      rw [kbGetchar_nil h hp, hready]
      dsimp only
      rw [if_neg (by simp)]
      refine ⟨rfl, fun a => ?_⟩
      rw [List.length_nil, Nat.min_zero, if_neg (by omega)]
    | cons c cs =>
      obtain ⟨d', hget, hin, hcs⟩ := kbGetchar_cons h hp
      rw [hget]
      dsimp only
      by_cases hc : c = 0
      · have hready : d.ready = [] := by
          rw [KboardDevice.ready, hp, List.takeWhile_cons_of_neg (by simp [hc])]
        rw [if_neg (by simp [hc]), hready]
        refine ⟨rfl, fun a => ?_⟩
        rw [List.length_nil, Nat.min_zero, if_neg (by omega)]
      · have hready : d.ready = c :: d'.ready := by
          rw [KboardDevice.ready, hp, List.takeWhile_cons_of_pos (by exact decide_eq_true hc), ← hcs]
          rfl
        obtain ⟨hi, hbuf⟩ := @ih d' (Function.update buffer i c) (i + 1) hin
        rw [if_pos hc, hready, List.length_cons, Nat.succ_min_succ]
        refine ⟨by rw [hi]; omega, fun a => ?_⟩
        rw [hbuf a]
        rcases Nat.lt_trichotomy a i with ha | rfl | ha
        · rw [if_neg (by omega), if_neg (by omega), Function.update_of_ne (by omega)]
        · rw [if_neg (by omega), if_pos (by omega), Function.update_self, Nat.sub_self]
          rfl
        · rw [Function.update_of_ne (by omega)]
          have hsub : a - i = (a - (i + 1)) + 1 := by omega
          by_cases hin : i + 1 ≤ a ∧ a < i + 1 + min n d'.ready.length
          · rw [if_pos hin, if_pos (by omega), hsub, List.getD_cons_succ]
          · rw [if_neg hin, if_neg (by omega)]

/-! ## What it should deliver -/

/-- `kb_read` delivers the next `min(len, m)` of the `m` characters waiting, and says so. -/
structure Delivers (d : KboardDevice) (buffer : Nat → Byte) (len : Nat) : Prop where
  count : (kbRead d buffer len).2.2 = min len d.chars.length
  inOrder : ∀ i < min len d.chars.length, (kbRead d buffer len).2.1 i = d.chars.getD i 0

/-- No 0 is queued in front of what a call for `len` characters should deliver. -/
def Due (d : KboardDevice) (len : Nat) : Prop :=
  ∀ b ∈ d.pending.take (min len d.chars.length), b ≠ 0

/-- The bytes in front of the first 0 are the first characters. -/
theorem chars_eq (d : KboardDevice) : ∃ later, d.chars = d.ready ++ later := by
  refine ⟨(d.pending.dropWhile fun b => decide (b ≠ 0)).filter fun b => decide (b ≠ 0), ?_⟩
  have hready : d.ready.filter (fun b => decide (b ≠ 0)) = d.ready :=
    List.filter_eq_self.mpr fun b hb => List.all_eq_true.mp List.all_takeWhile b hb
  rw [KboardDevice.chars, ← hready, KboardDevice.ready, ← List.filter_append,
    List.takeWhile_append_dropWhile]

/-- The first `k` elements all pass if the first one that does not comes later. -/
theorem le_length_takeWhile_iff {α : Type} {p : α → Bool} : ∀ {l : List α} {k : Nat},
    k ≤ l.length → (k ≤ (l.takeWhile p).length ↔ ∀ b ∈ l.take k, p b = true)
  | l, 0, _ => by simp
  | a :: l, k + 1, hk => by
    by_cases ha : p a = true
    · rw [List.takeWhile_cons_of_pos ha, List.take_succ_cons, List.forall_mem_cons,
        List.length_cons, Nat.succ_le_succ_iff,
        le_length_takeWhile_iff (Nat.le_of_succ_le_succ hk)]
      exact (and_iff_right ha).symm
    · rw [List.takeWhile_cons_of_neg ha, List.take_succ_cons, List.forall_mem_cons]
      exact iff_of_false (Nat.not_succ_le_zero k) fun h => ha h.1

theorem due_iff (d : KboardDevice) (len : Nat) :
    Due d len ↔ min len d.chars.length ≤ d.ready.length := by
  have hle : d.chars.length ≤ d.pending.length := List.length_filter_le _ _
  rw [KboardDevice.ready, le_length_takeWhile_iff (by omega)]
  simp only [Due, decide_eq_true_eq]

theorem delivers_iff (h : d.InRange) (buffer : Nat → Byte) (len : Nat) :
    Delivers d buffer len ↔ Due d len := by
  obtain ⟨hcount, hbuf⟩ := @kbReadFrom_spec d buffer 0 len h
  obtain ⟨later, hchars⟩ := chars_eq d
  have hlen : d.ready.length ≤ d.chars.length := by
    rw [hchars, List.length_append]
    omega
  rw [due_iff]
  constructor
  · intro hd
    have := hd.count
    rw [kbRead, hcount] at this
    omega
  · intro hdue
    refine ⟨by rw [kbRead, hcount]; omega, fun j hj => ?_⟩
    rw [kbRead, hbuf, if_pos (by omega), hchars, Nat.sub_zero,
      List.getD_append _ _ _ _ (by omega)]

/-- `getchar` goes to sleep when the first byte, if any, is a 0. -/
theorem getcharTurn_none_iff (h : d.InRange) (ch : Byte) :
    (getcharTurn d ch).2 = none ↔ d.ready = [] := by
  have hcount := (@kbReadFrom_spec d (fun _ => ch) 0 1 h).1
  unfold getcharTurn kbRead
  dsimp only
  rw [hcount, ← List.length_eq_zero_iff]
  split
  · exact iff_of_true rfl (by omega)
  · exact iff_of_false (by simp) (by omega)

theorem sleeps_iff (h : d.InRange) (ch : Byte) :
    ((getcharTurn d ch).2 = none → d.chars = []) ↔ Due d 1 := by
  obtain ⟨later, hchars⟩ := chars_eq d
  have hlen : d.ready.length ≤ d.chars.length := by
    rw [hchars, List.length_append]
    omega
  rw [getcharTurn_none_iff h, due_iff, ← List.length_eq_zero_iff, ← List.length_eq_zero_iff]
  omega

variable {es : List Ev} {s : Sys}

/-- **When a waiting reader gets the queued key**: `kb_read` delivers what it should, and `getchar`
sleeps in front of an empty queue only, when no 0 is queued in front of what is due. -/
theorem reader_iff (h : Run es s) :
    (∀ buffer len, 1 ≤ len → (Delivers s.dev buffer len ↔ Due s.dev len)) ∧
      ∀ ch, ((getcharTurn s.dev ch).2 = none → s.dev.chars = []) ↔ Due s.dev 1 :=
  ⟨fun buffer len _ => delivers_iff h.inv.inRange buffer len,
    fun ch => sleeps_iff h.inv.inRange ch⟩

/-- After `a` is pressed. -/
theorem reader_key : Delivers (keyboardHandler (kbInit (bss usKeymap)) 0x1E) (fun _ => 0) 1 := by
  have hrun := (Run.init usKeymap).step (.key 0x1E)
  exact ((reader_iff hrun).1 _ 1 (by decide)).2 (by unfold Due; decide)

/-- After F1 and `a`: `kb_read` takes the 0 of F1 out and returns 0. -/
theorem reader_misses : ∃ es s, Run es s ∧ s.reader = .idle ∧ ¬ Delivers s.dev (fun _ => 0) 1 ∧
    (getcharTurn s.dev 0).2 = none ∧ s.dev.chars = [97] := by
  have h1 := (Run.init usKeymap).step (.key 0x3B)
  have h2 := h1.step (.key 0x1E)
  refine ⟨_, _, h2, rfl, fun hd => ?_, by decide, by decide⟩
  exact absurd hd.count (by decide)

end Hurlex.Kboard
