import Hurlex.Lib.CountedLock
import Mathlib.Data.BitVec

/-!
# The spinlock (`arch/i386/include/spinlock.h`)

`spinlock_lock` and `spinlock_unlock`, instruction by instruction, for any number of threads on
one lock and any order of their instructions. Only the low byte of the lock's word is counted: the
instructions are `decb`, `cmpb` and `movb`.

The lock is an instance of the counted lock of `Lib/CountedLock`, whose threads' steps are one or
two instructions here (`abs_step`). A signed byte counts 129 threads and no more, and that is
exactly how many the lock keeps apart (`spinlock_exclusive_iff`).
-/

namespace Hurlex

open Lib.CountedLock

/-- `SPIN_LOCK_UNLOCKED` -/
def spinLockUnlocked : BitVec 32 := 1

/-- The instruction a thread executes next. Between the lock's two functions a thread is at `out`
without the lock and at `movb` with it. -/
inductive SpinPc where
  | out | decb | js | cmpb | repNop | jle | jmp | movb
  deriving DecidableEq, Repr

/-- A thread: its place, and the flags its jumps read. -/
structure SpinThread where
  pc : SpinPc
  sf : Bool
  zf : Bool
  of : Bool
  deriving DecidableEq, Repr

def lowByte (w : BitVec 32) : BitVec 8 := w.setWidth 8

def setLowByte (w : BitVec 32) (b : BitVec 8) : BitVec 32 := w.extractLsb' 8 24 ++ b

/-- One instruction of one thread, with the lock's word before and after it. `decb` is locked, so
that no other instruction comes between its load and its store. -/
def spinTurn (lock : BitVec 32) (t : SpinThread) : BitVec 32 × SpinThread :=
  match t.pc with
  | .out => (lock, { t with pc := .decb })
  | .decb =>
    let b := lowByte lock - 1
    (setLowByte lock b, ⟨.js, b.msb, b == 0, b == 127⟩)
  | .js => (lock, { t with pc := if t.sf then .cmpb else .movb })
  -- a comparison with zero: the byte itself, and no overflow
  | .cmpb => (lock, ⟨.repNop, (lowByte lock).msb, lowByte lock == 0, false⟩)
  | .repNop => (lock, { t with pc := .jle })
  | .jle => (lock, { t with pc := if t.zf || t.sf != t.of then .cmpb else .jmp })
  | .jmp => (lock, { t with pc := .decb })
  | .movb => (setLowByte lock 1, { t with pc := .out })

@[ext] structure SpinState (T : Type*) where
  lock : BitVec 32
  thread : T → SpinThread

variable {T : Type*} [DecidableEq T]

def SpinState.step (s : SpinState T) (t : T) : SpinState T where
  lock := (spinTurn s.lock (s.thread t)).1
  thread := Function.update s.thread t (spinTurn s.lock (s.thread t)).2

/-- `spin_lock_init`, with every thread outside. -/
def spinLockInit : SpinState T := ⟨spinLockUnlocked, fun _ => ⟨.out, false, false, false⟩⟩

/-- A run: the threads in the order of their instructions. -/
def spinRun (ts : List T) : SpinState T := ts.foldl SpinState.step spinLockInit

/-- Between `spinlock_lock` and the store of `spinlock_unlock`. -/
def SpinState.Holds (s : SpinState T) (t : T) : Prop := (s.thread t).pc = .movb

/-! ## The lock as a counter -/

/-- The low byte as `decb`, `movb`, `js` and `jle` see it. -/
def spinCounter : Counter (BitVec 32) where
  free := spinLockUnlocked
  dec := fun w => setLowByte w (lowByte w - 1)
  unlock := fun w => setLowByte w 1
  neg := fun w => (lowByte w).msb
  nonpos := fun w => lowByte w == 0 || (lowByte w).msb

def SpinThread.abs (t : SpinThread) : Pc :=
  match t.pc with
  | .out => .outside
  | .decb | .jmp => .take
  | .js => .tested t.sf
  | .cmpb => .look
  | .repNop | .jle => .looked (t.zf || t.sf != t.of)
  | .movb => .holds

def SpinState.abs (s : SpinState T) : State (BitVec 32) T := ⟨s.lock, fun t => (s.thread t).abs⟩

theorem lowByte_setLowByte (w : BitVec 32) (b : BitVec 8) : lowByte (setLowByte w b) = b := by
  ext i hi
  simp only [lowByte, setLowByte, BitVec.getElem_setWidth, BitVec.getLsbD_append, hi, if_true,
    BitVec.getLsbD_eq_getElem]

theorem setLowByte_setLowByte (w : BitVec 32) (b c : BitVec 8) :
    setLowByte (setLowByte w b) c = setLowByte w c := by
  unfold setLowByte
  rw [BitVec.extractLsb'_append_eq_of_le (by decide)]
  simp

/-- The word after `k` decrements. -/
theorem dec_iterate (k : Nat) :
    spinCounter.dec^[k] spinCounter.free = setLowByte 0 (1 - BitVec.ofNat 8 k) := by
  induction k with
  | zero => rfl
  | succ k ih =>
    rw [Function.iterate_succ_apply', ih]
    show setLowByte (setLowByte _ _) (lowByte (setLowByte _ _) - 1) = _
    rw [lowByte_setLowByte, setLowByte_setLowByte]
    congr 1
    bv_omega

theorem neg_dec_iterate (k : Nat) : spinCounter.neg (spinCounter.dec^[k] spinCounter.free) =
    decide (128 ≤ (257 - k % 256) % 256) := by
  rw [dec_iterate]
  show (lowByte _).msb = _
  rw [lowByte_setLowByte, BitVec.msb_eq_decide]
  congr 2
  bv_omega

/-- A signed byte tells 129 decrements apart. -/
theorem spinCounter_faithful {n : Nat} (hn : n ≤ 129) : Faithful spinCounter n where
  open_free := rfl
  neg_one := rfl
  neg_dec := fun k h2 hk => by
    rw [neg_dec_iterate, decide_eq_true_iff]
    omega
  nonpos_dec := fun k h1 hk => by
    show (_ || spinCounter.neg _) = true
    rw [neg_dec_iterate, dec_iterate, lowByte_setLowByte, Bool.or_eq_true, beq_iff_eq,
      decide_eq_true_iff]
    by_cases hk : k = 1
    · left; subst hk; rfl
    · right; omega
  unlock_dec := fun k _ => by
    rw [dec_iterate]
    show setLowByte (setLowByte _ _) _ = _
    rw [setLowByte_setLowByte]
    rfl

/-! ## The simulation -/

/-- The thread's next instruction moves control only. -/
def SpinThread.idles (t : SpinThread) : Bool := t.pc == .repNop || t.pc == .jmp

theorem spinTurn_idles {l : BitVec 32} {t : SpinThread} (h : t.idles = true) :
    (spinTurn l t).1 = l ∧ (spinTurn l t).2.abs = t.abs ∧ (spinTurn l t).2.idles = false := by
  obtain ⟨pc, sf, zf, of⟩ := t
  cases pc with
  | repNop => exact ⟨rfl, rfl, rfl⟩
  | jmp => exact ⟨rfl, rfl, rfl⟩
  | out | decb | js | cmpb | jle | movb => simp [SpinThread.idles] at h

theorem spinTurn_turn {l : BitVec 32} {t : SpinThread} (h : t.idles = false) :
    ((spinTurn l t).1, (spinTurn l t).2.abs) = turn spinCounter l t.abs := by
  obtain ⟨pc, sf, zf, of⟩ := t
  cases pc with
  | out => rfl
  | decb =>
    show (setLowByte l _, Pc.tested _) = (setLowByte l _, Pc.tested (lowByte (setLowByte l _)).msb)
    rw [lowByte_setLowByte]
    rfl
  | js => cases sf <;> rfl
  | cmpb =>
    show (l, Pc.looked (_ || (lowByte l).msb != false)) = (l, Pc.looked (_ || (lowByte l).msb))
    rw [Bool.bne_false]
    rfl
  | repNop => simp [SpinThread.idles] at h
  | jle =>
    show (l, SpinThread.abs ⟨if (zf || sf != of) then _ else _, _, _, _⟩) =
      turn spinCounter l (.looked (zf || sf != of))
    cases zf || sf != of <;> rfl
  | jmp => simp [SpinThread.idles] at h
  | movb => rfl

variable {s : SpinState T} {t : T}

@[simp] theorem step_thread_self (s : SpinState T) (t : T) :
    (s.step t).thread t = (spinTurn s.lock (s.thread t)).2 := Function.update_self ..

theorem step_thread_of_ne (s : SpinState T) {t u : T} (hu : u ≠ t) :
    (s.step t).thread u = s.thread u := Function.update_of_ne hu ..

theorem abs_step_thread (s : SpinState T) (t : T) : (s.step t).abs =
    s.abs.put t ((spinTurn s.lock (s.thread t)).1, (spinTurn s.lock (s.thread t)).2.abs) := by
  ext u
  · rfl
  · by_cases hu : u = t
    · subst hu
      rw [put_pc_self]
      exact congrArg SpinThread.abs (step_thread_self s u)
    · rw [put_pc_of_ne _ _ hu]
      exact congrArg SpinThread.abs (step_thread_of_ne s hu)

theorem abs_step_idles (h : (s.thread t).idles = true) : (s.step t).abs = s.abs := by
  obtain ⟨h1, h2, -⟩ := spinTurn_idles (l := s.lock) h
  rw [abs_step_thread, h1, h2]
  ext u
  · rfl
  · by_cases hu : u = t
    · subst hu; rw [put_pc_self]; rfl
    · rw [put_pc_of_ne _ _ hu]

/-- **Every other instruction is a step of the counted lock.** -/
theorem abs_step (h : (s.thread t).idles = false) :
    (s.step t).abs = s.abs.step spinCounter t := by
  rw [abs_step_thread, spinTurn_turn h]
  rfl

/-- A step of the counted lock is one instruction or two. -/
theorem step_abs (s : SpinState T) (t : T) :
    ∃ n ≤ 2, ((fun s => SpinState.step s t)^[n] s).abs = s.abs.step spinCounter t := by
  cases h : (s.thread t).idles with
  | false => exact ⟨1, by omega, abs_step h⟩
  | true =>
    refine ⟨2, by omega, ?_⟩
    show ((s.step t).step t).abs = _
    have hnext : ((s.step t).thread t).idles = false := by
      rw [step_thread_self]
      exact (spinTurn_idles h).2.2
    rw [abs_step hnext, abs_step_idles h]

theorem steps_abs (k : Nat) : ∀ s : SpinState T, ∃ n ≤ 2 * k,
    ((fun s => SpinState.step s t)^[n] s).abs =
      (fun s => State.step spinCounter s t)^[k] s.abs := by
  induction k with
  | zero => exact fun s => ⟨0, by omega, rfl⟩
  | succ k ih =>
    intro s
    obtain ⟨n, hn, h⟩ := step_abs s t
    obtain ⟨n', hn', h'⟩ := ih ((fun s => SpinState.step s t)^[n] s)
    refine ⟨n' + n, by omega, ?_⟩
    rw [Function.iterate_add_apply, h', h]
    rfl

/-- **Refinement**: the runs of the code are runs of the counted lock. -/
theorem spinRun_abs (ts : List T) : ∃ us, (spinRun ts).abs = run spinCounter us := by
  induction ts using List.reverseRecOn with
  | nil => exact ⟨[], rfl⟩
  | append_singleton ts t ih =>
    obtain ⟨us, h⟩ := ih
    rw [spinRun, List.foldl_append]
    cases hi : ((spinRun ts).thread t).idles with
    | false =>
      refine ⟨us ++ [t], ?_⟩
      rw [run, List.foldl_append]
      exact (abs_step hi).trans (congrArg (State.step spinCounter · t) h)
    | true => exact ⟨us, (abs_step_idles hi).trans h⟩

theorem foldl_replicate (n : Nat) (s : SpinState T) :
    (List.replicate n t).foldl SpinState.step s = (fun s => SpinState.step s t)^[n] s := by
  induction n generalizing s with
  | zero => rfl
  | succ n ih => exact ih (s.step t)

/-- Every run of the counted lock is one of the code. -/
theorem run_abs (us : List T) : ∃ ts, (spinRun ts).abs = run spinCounter us := by
  induction us using List.reverseRecOn with
  | nil => exact ⟨[], rfl⟩
  | append_singleton us t ih =>
    obtain ⟨ts, h⟩ := ih
    obtain ⟨n, -, hn⟩ := step_abs (spinRun ts) t
    refine ⟨ts ++ List.replicate n t, ?_⟩
    rw [spinRun, List.foldl_append, foldl_replicate, run, List.foldl_append]
    exact hn.trans (congrArg (State.step spinCounter · t) h)

theorem abs_holds (t : SpinThread) : t.abs = .holds ↔ t.pc = .movb := by
  obtain ⟨pc, sf, zf, of⟩ := t
  cases pc <;> simp [SpinThread.abs]

theorem abs_won (t : SpinThread) :
    t.abs.won = true ↔ t.pc = .movb ∨ (t.pc = .js ∧ t.sf = false) := by
  obtain ⟨pc, sf, zf, of⟩ := t
  cases pc <;> cases sf <;> simp [SpinThread.abs, Pc.won]

theorem abs_outside (t : SpinThread) : t.abs = .outside ↔ t.pc = .out := by
  obtain ⟨pc, sf, zf, of⟩ := t
  cases pc <;> simp [SpinThread.abs]

/-! ## What the lock gives -/

/-- **The lock excludes exactly up to 129 threads**: with them no order of instructions lets two
threads hold it, and with one more some order does. -/
theorem spinlock_exclusive_iff [Fintype T] :
    (∀ (ts : List T) (t u : T), (spinRun ts).Holds t → (spinRun ts).Holds u → t = u) ↔
      Fintype.card T ≤ 129 := by
  constructor
  · intro h
    by_contra hcard
    obtain ⟨us, hus⟩ := crowd_breaks (m := spinCounter) (n := 130) (T := T) rfl (by omega)
      (by omega) (neg_dec_iterate 130)
    obtain ⟨ts, hts⟩ := run_abs us
    refine hus fun t u ht hu => h ts t u ?_ ?_
    · rw [← hts] at ht; exact (abs_holds _).1 ht
    · rw [← hts] at hu; exact (abs_holds _).1 hu
  · intro hcard ts t u ht hu
    obtain ⟨us, hus⟩ := spinRun_abs ts
    refine exclusive_run (spinCounter_faithful hcard) us t u ?_ ?_
    · rw [← hus]; exact (abs_holds _).2 ht
    · rw [← hus]; exact (abs_holds _).2 hu

/-- **The lock is never lost.** At any moment of any run a thread holds it, or has won it and only
has to take the jump, or the lock's word is that of an open lock; and then any thread in
`spinlock_lock` that is left to run has it within ten instructions. -/
theorem spinlock_available [Fintype T] (hcard : Fintype.card T ≤ 129) (ts : List T) :
    (∃ t, (spinRun ts).Holds t) ∨
    (∃ t, ((spinRun ts).thread t).pc = .js ∧ ((spinRun ts).step t).Holds t) ∨
    (spinRun ts).lock = spinLockUnlocked ∧ ∀ t, ((spinRun ts).thread t).pc ≠ .out →
      ∃ n ≤ 10, ((fun s => SpinState.step s t)^[n] (spinRun ts)).Holds t := by
  obtain ⟨us, hus⟩ := spinRun_abs ts
  have hm := spinCounter_faithful hcard
  by_cases hwon : ∃ t, ((spinRun ts).abs.pc t).won = true
  · obtain ⟨t, ht⟩ := hwon
    rcases (abs_won _).1 ht with h | ⟨h, hsf⟩
    · exact .inl ⟨t, h⟩
    · refine .inr (.inl ⟨t, h, ?_⟩)
      rw [SpinState.Holds, step_thread_self, spinTurn, h, hsf]
      rfl
  · have hfree : (spinRun ts).abs.cell = spinCounter.free := by
      rcases run_won_or_free hm us with h | h
      · rw [← hus] at h
        exact absurd h hwon
      · rw [hus, h]
    refine .inr (.inr ⟨hfree, fun t ht => ?_⟩)
    obtain ⟨k, hk, h⟩ := acquires hm.open_free hm.neg_one hfree
      (fun h => ht ((abs_outside _).1 h)) (Bool.eq_false_iff.2 fun h => hwon ⟨t, h⟩)
    obtain ⟨n, hn, h'⟩ := steps_abs (t := t) k (spinRun ts)
    refine ⟨n, by omega, (abs_holds _).1 ?_⟩
    exact (congrFun (congrArg State.pc h') t).trans h

theorem spinlock_available_two : Fintype.card (Fin 2) ≤ 129 ∧
    ((∃ t : Fin 2, (spinRun [0, 0, 1, 1]).Holds t) ∨
    (∃ t : Fin 2, ((spinRun [0, 0, 1, 1]).thread t).pc = .js ∧
      ((spinRun [0, 0, 1, 1]).step t).Holds t) ∨
    (spinRun ([0, 0, 1, 1] : List (Fin 2))).lock = spinLockUnlocked ∧
      ∀ t : Fin 2, ((spinRun [0, 0, 1, 1]).thread t).pc ≠ .out →
        ∃ n ≤ 10, ((fun s => SpinState.step s t)^[n] (spinRun [0, 0, 1, 1])).Holds t) :=
  ⟨by decide, spinlock_available (by decide) [0, 0, 1, 1]⟩

end Hurlex
