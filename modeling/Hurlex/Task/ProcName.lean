import Hurlex.String

/-!
# Naming a task

`set_proc_name` of `arch/i386/task/task.c` clears `task->name` and hands it to `strncpy`, with the
array's length as the bound `strncpy` does not keep. Behind the array come the other fields of the
`task_struct`.

**`naming_iff`**: a name touches the name field only if it fits into it.
-/

namespace Hurlex.Task

/-- `TASK_NAME_MAX`. -/
def taskNameMax : Nat := 20

/-- `offsetof(struct task_struct, name)`: `state`, `stack` and `pid` come first. -/
def nameOffset : Nat := 12

/-- `set_proc_name`: the memory afterwards. -/
def setProcName (mem : ByteMem) (task name : Nat) : Kern ByteMem :=
  strncpy (bzero mem (task + nameOffset) (taskNameMax + 1)) (task + nameOffset) name taskNameMax

/-- What naming a task with `n` characters should do: the characters that fit, NULs behind them, and
no other byte of the `task_struct` or of anything else. -/
structure Named (mem mem' : ByteMem) (task name n : Nat) : Prop where
  chars : ∀ i < min n taskNameMax, mem' (task + nameOffset + i) = mem (name + i)
  nuls : ∀ i, min n taskNameMax ≤ i → i ≤ taskNameMax → mem' (task + nameOffset + i) = 0
  frame : ∀ a < addrSpace, a < task + nameOffset ∨ task + nameOffset + taskNameMax < a →
    mem' a = mem a

/-- `set_proc_name` returns, and does what it should. -/
def NamesOnly (mem : ByteMem) (task name n : Nat) : Prop :=
  ∃ mem', setProcName mem task name = .ok mem' ∧ Named mem mem' task name n

variable {mem : ByteMem} {task name n : Nat}

/-- A name that lies apart from the name field is still there when the field has been cleared. -/
theorem isStr_bzero (hs : IsStr mem name n)
    (htask : task + nameOffset + taskNameMax + 1 ≤ addrSpace)
    (hapart : name + n < task + nameOffset ∨ task + nameOffset + taskNameMax < name) :
    IsStr (bzero mem (task + nameOffset) (taskNameMax + 1)) name n ∧
      ∀ i ≤ n, bzero mem (task + nameOffset) (taskNameMax + 1) (name + i) =
        mem (name + i) := by
  have hin := hs.inside
  have hkeep : ∀ i ≤ n, bzero mem (task + nameOffset) (taskNameMax + 1) (name + i) =
      mem (name + i) := by
    intro i hi
    rw [bzero_apply (by omega) (by omega), if_neg (by omega)]
  refine ⟨⟨fun i hi => ?_, ?_, hin⟩, hkeep⟩
  · rw [hkeep i (by omega)]
    exact hs.chars i hi
  · rw [hkeep n (Nat.le_refl n)]
    exact hs.nul

theorem setProcName_iff (hs : IsStr mem name n)
    (htask : task + nameOffset + taskNameMax + 1 ≤ addrSpace)
    (hapart : name + n < task + nameOffset ∨ task + nameOffset + taskNameMax < name) :
    NamesOnly mem task name n ↔ n ≤ taskNameMax := by
  obtain ⟨hs', hkeep⟩ := isStr_bzero hs htask hapart
  have hmax : 0 < taskNameMax := by decide
  have hin := hs.inside
  constructor
  · rintro ⟨mem', h, hn⟩
    by_contra hlong
    have hover := strncpy_overrun hs' hapart hmax (by omega) h
    have hnul := hn.nuls taskNameMax (by omega) (by omega)
    rw [hover, hkeep _ (by omega)] at hnul
    exact hs.chars _ (by omega) hnul
  · intro hle
    refine ⟨_, strncpy_str hs' (by omega) hmax, ?_, ?_, ?_⟩
    · intro i hi
      rw [Function.update_of_ne (by omega), copied_at (by omega), hkeep i (by omega)]
    · intro i hi hi'
      by_cases hend : i = n
      · rw [hend, Function.update_self]
      · rw [Function.update_of_ne (by omega), copied_of_not_mem (by omega),
          bzero_apply (by omega) (by omega), if_pos (by omega)]
    · intro a ha hout
      rw [Function.update_of_ne (by omega), copied_of_not_mem (by omega),
        bzero_apply (by omega) ha, if_neg (by omega)]

/-- **When naming touches only the name, and `strncpy` keeps to its bound.** -/
theorem naming_iff (mem : ByteMem) :
    (∀ task name n : Nat, IsStr mem name n →
      task + nameOffset + taskNameMax + 1 ≤ addrSpace →
      name + n < task + nameOffset ∨ task + nameOffset + taskNameMax < name →
      (NamesOnly mem task name n ↔ n ≤ taskNameMax)) ∧
    ∀ dest src n len : Nat, IsStr mem src n →
      src + n < dest ∨ dest + len < src →
      (StrncpyExact mem dest src n len ↔ n ≤ len ∨ len = 0) :=
  ⟨fun _ _ _ hs htask hapart => setProcName_iff hs htask hapart,
    fun _ _ _ _ hs hapart => strncpy_exact_iff hs hapart⟩

/-- Memory with `k` letters at `0x1000` and nothing else. -/
def letters (k : Nat) : ByteMem := fun a => if 0x1000 ≤ a ∧ a < 0x1000 + k then 0x61 else 0

theorem letters_isStr {k : Nat} (hk : 0x1000 + k < addrSpace) : IsStr (letters k) 0x1000 k where
  chars i hi := by
    rw [letters, if_pos (by omega)]
    decide
  nul := if_neg (by omega)
  inside := hk

/-- A name of four letters, and the first four of twenty letters. -/
theorem naming_letters : NamesOnly (letters 4) 0x2000 0x1000 4 ∧
    ¬ StrncpyExact (letters 21) 0x2000 0x1000 21 20 := by
  refine ⟨((naming_iff _).1 _ _ _ (letters_isStr (by decide)) (by decide) (Or.inl (by decide))).2
    (by decide), fun h => ?_⟩
  exact absurd (((naming_iff _).2 _ _ _ _ (letters_isStr (by decide)) (Or.inl (by decide))).1 h)
    (by decide)

/-- A name of 40 letters runs over the fields behind the array, `runs_time` first. -/
theorem naming_overruns :
    ¬ ∀ (mem : ByteMem) (task name n : Nat), IsStr mem name n →
      task + nameOffset + taskNameMax + 1 ≤ addrSpace →
      name + n < task + nameOffset ∨ task + nameOffset + taskNameMax < name →
      NamesOnly mem task name n := by
  intro h
  have hs : IsStr (letters 40) 0x1000 40 := letters_isStr (by decide)
  have hn := h (letters 40) 0x2000 0x1000 40 hs (by decide) (Or.inl (by decide))
  exact absurd ((setProcName_iff hs (by decide) (Or.inl (by decide))).1 hn) (by decide)

end Hurlex.Task
