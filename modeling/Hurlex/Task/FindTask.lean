import Mathlib.Data.List.Find
import Hurlex.Task.PidHistory

/-!
# Looking a task up by its number

`find_task` returns the first task on the list with the number. Tasks that have exited stay on the
list and their numbers are handed out again, but `do_fork` puts a new task in front: a live task is met
before every other one that ever had its number.

**`run_findTask`**: after any run `find_task` returns the live task with the number, if there is one.
-/

namespace Hurlex.Task

open Lib

/-- `task->pid == pid`, for the task of a node. -/
def Kernel.hasPid (k : Kernel) (pid : Int) : TaskNode → Bool
  | .head _ => false
  | .entry t => decide ((k.task t).pid = pid)

/-- `le_to_task`. -/
def leToTask : TaskNode → Option Addr
  | .head _ => none
  | .entry t => some t

/-- `find_task`: `some none` is `NULL`, and `none` a walk that has not come to its end. -/
def Kernel.findTask (k : Kernel) (fuel : Nat) (pid : Int) : Option (Option Addr) :=
  if 0 < pid ∧ pid < maxPid then
    (k.links.scan taskList (k.hasPid pid) fuel (k.links.next taskList)).map (·.bind leToTask)
  else some none

/-- The walk comes to its end with the result `r`. -/
def Kernel.Finds (k : Kernel) (pid : Int) (r : Option Addr) : Prop :=
  ∃ n, ∀ fuel, n ≤ fuel → k.findTask fuel pid = some r

/-- A live task is the first one on the list with its number. -/
def LiveFirst (k : Kernel) (tasks : List Addr) : Prop :=
  ∀ t ∈ tasks, k.live t = true →
    tasks.find? (fun u => decide ((k.task u).pid = (k.task t).pid)) = some t

variable {s s' : Sys} {k : Kernel} {tasks : List Addr} {es : List Ev} {e : Ev} {t : Addr} {pid : Int}

/-- **`find_task` on a closed list** is `find?` on its tasks. -/
theorem TaskList.finds (h : TaskList k tasks) (h0 : 0 < pid) (hmax : pid < maxPid) :
    k.Finds pid (tasks.find? fun u => decide ((k.task u).pid = pid)) := by
  refine ⟨tasks.length + 1, fun fuel hfuel => ?_⟩
  have hlen : (tasks.map (.entry : Addr → TaskNode)).length < fuel := by
    rw [List.length_map]
    omega
  rw [Kernel.findTask, if_pos ⟨h0, hmax⟩, h.ring.scan (k.hasPid pid) hlen, List.find?_map]
  show some ((Option.map Node.entry (tasks.find? _)).bind leToTask) = _
  rw [Option.bind_map]
  exact congrArg some (Option.bind_fun_some _)

/-! ## One step -/

/-- What a step leaves of the order among the tasks that were on the list. -/
theorem LiveFirst.old (hi : Inv s tasks) (h : LiveFirst s.toKernel tasks) (hs : Step s e s')
    (ht : t ∈ tasks) (hlive : s'.live t = true) : s.live t = true ∧
      tasks.find? (fun u => decide ((s'.task u).pid = (s'.task t).pid)) = some t := by
  obtain ⟨hpid, hz⟩ := hi.step_task hs ht
  have hold : s.live t = true :=
    decide_eq_true fun hc => of_decide_eq_true hlive (hz.2 (Or.inl hc))
  refine ⟨hold, ?_⟩
  rw [← h t ht hold]
  refine List.find?_congr fun u hu => ?_
  rw [hpid, (hi.step_task hs hu).1]

/-- A new task gets a number no live task has, and goes in front. -/
theorem LiveFirst.commit (hi : Inv s tasks) (h : LiveFirst s.toKernel tasks)
    (hs : Step s (.commit t) s') : LiveFirst s'.toKernel (t :: tasks) := by
  have hroom := hi.room
  obtain ⟨p, -, ⟨hnew, -⟩, hp, -⟩ := hi.numbers.alloc (by omega)
  have hpids : s'.pids (t :: tasks) = (allocPid s.glbPidMap).2 :: s.pids tasks := hi.step_pids hs
  have hself : (s'.task t).pid = (p : Int) := by
    rw [← hp]
    exact (List.cons.inj hpids).1
  intro a ha hlive
  rcases List.mem_cons.1 ha with rfl | ha
  · exact List.find?_cons_of_pos (by simp)
  · obtain ⟨hold, hfind⟩ := h.old hi hs ha hlive
    have hne : (s'.task t).pid ≠ (s'.task a).pid := by
      intro hc
      refine hnew (mem_livePids.2 ⟨a, ha, hold, ?_⟩)
      rw [← hself, hc, (hi.step_task hs ha).1]
    rw [List.find?_cons_of_neg (by simpa using hne)]
    exact hfind

theorem LiveFirst.step (hi : Inv s tasks) (h : LiveFirst s.toKernel tasks) (hs : Step s e s') :
    LiveFirst s'.toKernel (e.list tasks) := by
  cases e with
  | commit t => exact h.commit hi hs
  | refused | check | alloc | wake | exit | tick =>
    exact fun t ht hlive => (h.old hi hs ht hlive).2

/-! ## Whole runs -/

theorem Run.liveFirst (h : Run es s) : ∃ tasks, Inv s tasks ∧ LiveFirst s.toKernel tasks := by
  induction h with
  | start k idleTask =>
    refine ⟨_, start_inv k idleTask, fun t ht _ => ?_⟩
    obtain rfl := List.mem_singleton.1 ht
    exact List.find?_cons_of_pos (by simp)
  | step _ hs ih =>
    obtain ⟨tasks, hi, hfirst⟩ := ih
    exact ⟨_, hi.step hs, hfirst.step hi hs⟩

/-- **Lookup by number finds the live task**, whatever tasks had the number before; a number that no
task on the list has is not found. -/
theorem run_findTask (h : Run es s) (h0 : 0 < pid) (hmax : pid < maxPid) :
    (∀ t, Listed s.toKernel t → s.live t = true → (s.task t).pid = pid → s.Finds pid (some t)) ∧
      ((∀ t, Listed s.toKernel t → (s.task t).pid ≠ pid) → s.Finds pid none) := by
  obtain ⟨tasks, hi, hfirst⟩ := h.liveFirst
  have hfinds := hi.list.finds h0 hmax
  constructor
  · rintro t ht hlive rfl
    rwa [hfirst t ((hi.listed_iff t).1 ht) hlive] at hfinds
  · intro hno
    rwa [List.find?_eq_none.2 fun t ht => by simpa using hno t ((hi.listed_iff t).2 ht)] at hfinds

/-- A ZOMBIE has the number too. -/
theorem run_findTask_lateFork : (lateFork.task 1).state = .zombie ∧ (lateFork.task 1).pid = 1 ∧
    lateFork.Finds 1 (some 2) := by
  obtain ⟨hz, hpid, hlive, hpid'⟩ := lateFork_pids
  obtain ⟨h, hi⟩ := lateFork_run
  exact ⟨hz, hpid, (run_findTask h (by decide) (by decide)).1 2 ((hi.listed_iff 2).2 (by simp))
    hlive hpid'⟩

end Hurlex.Task
