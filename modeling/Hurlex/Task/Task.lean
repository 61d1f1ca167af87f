import Hurlex.List
import Hurlex.Types
import Hurlex.Task.Pid

/-!
# Tasks

The task list and the counters of `arch/i386/task/task.c` and `kernel/sched/sched.c`. A `Kernel` is
the state these files share; the functions below are `task_init`, the sections of `do_fork` and
`do_exit` between which the timer may interrupt, `wakeup_task` and `schedule`. A task is named by
the address of its `task_struct`.
-/

namespace Hurlex.Task

open Lib

/-- The address of a `task_struct`. -/
abbrev Addr := Nat

/-- A `list_head` of the task list: `task_list`, or the field of a task. -/
abbrev TaskNode := Node Unit Addr

/-- `&task_list`. -/
abbrev taskList : TaskNode := .head ()

/-- `task_state_t`. -/
inductive TaskState where
  | uninit | sleeping | runnable | zombie
  deriving DecidableEq, Repr

/-- The fields of a `task_struct` that are read here; its `list` field is in the links. -/
structure TaskStruct where
  state : TaskState
  pid : Int
  runsTime : Nat
  needResched : Bool
  exitCode : Int
  deriving DecidableEq, Repr

/-- A `task_struct` after `bzero`. -/
def TaskStruct.zero : TaskStruct where
  state := .uninit
  pid := 0
  runsTime := 0
  needResched := false
  exitCode := 0

structure Kernel where
  links : Links TaskNode
  task : Addr → TaskStruct
  nrTask : Int
  glbPidMap : PidMap
  glbIdleTask : Addr
  current : Addr

namespace Kernel

variable (k : Kernel)

def setTask (t : Addr) (v : TaskStruct) : Kernel := { k with task := Function.update k.task t v }

variable {k} in
@[simp] theorem setTask_self (t : Addr) (v : TaskStruct) : (k.setTask t v).task t = v :=
  Function.update_self ..

variable {k} in
theorem setTask_of_ne {t a : Addr} (v : TaskStruct) (h : a ≠ t) :
    (k.setTask t v).task a = k.task a :=
  Function.update_of_ne h ..

/-- A field that is stored back unchanged is unchanged everywhere. -/
theorem setTask_field {β : Type*} (f : TaskStruct → β) {t : Addr} {v : TaskStruct}
    (h : f v = f (k.task t)) (a : Addr) : f ((k.setTask t v).task a) = f (k.task a) := by
  by_cases ha : a = t
  · rw [ha, setTask_self, h]
  · rw [setTask_of_ne v ha]

/-- `task_init`, on the stack of the task it makes. -/
def taskInit (idleTask : Addr) : Kernel :=
  let k := { k with links := initListHead k.links taskList, current := idleTask }
  let a := allocPid k.glbPidMap
  let k := k.setTask idleTask
    { TaskStruct.zero with state := .runnable, pid := a.2, needResched := true }
  { k with
    glbPidMap := a.1
    nrTask := k.nrTask + 1
    links := listAdd k.links (.entry idleTask) taskList
    glbIdleTask := idleTask }

/-! ## `do_fork` -/

/-- `alloc_task_struct`, given where the page it got is mapped. -/
def allocTaskStruct (task : Addr) : Kernel :=
  k.setTask task { TaskStruct.zero with state := .uninit, pid := -1 }

/-- The section with interrupts off: a number, a place on the list, and the count. -/
def forkCommit (task : Addr) : Kernel :=
  let a := allocPid k.glbPidMap
  let k := k.setTask task { k.task task with pid := a.2 }
  { k with
    glbPidMap := a.1
    links := listAdd k.links (.entry task) taskList
    nrTask := k.nrTask + 1 }

def wakeupTask (task : Addr) : Kernel :=
  if (k.task task).state ≠ .zombie then
    k.setTask task { k.task task with state := .runnable }
  else k

/-- Waking up changes nothing but the task. -/
theorem wakeupTask_eq (task : Addr) :
    k.wakeupTask task = { k with task := (k.wakeupTask task).task } := by
  unfold wakeupTask
  split
  · rfl
  · rfl

@[simp] theorem wakeupTask_links (task : Addr) : (k.wakeupTask task).links = k.links := by
  rw [wakeupTask_eq]
@[simp] theorem wakeupTask_nrTask (task : Addr) : (k.wakeupTask task).nrTask = k.nrTask := by
  rw [wakeupTask_eq]
@[simp] theorem wakeupTask_glbPidMap (task : Addr) :
    (k.wakeupTask task).glbPidMap = k.glbPidMap := by
  rw [wakeupTask_eq]
@[simp] theorem wakeupTask_glbIdleTask (task : Addr) :
    (k.wakeupTask task).glbIdleTask = k.glbIdleTask := by
  rw [wakeupTask_eq]
@[simp] theorem wakeupTask_current (task : Addr) : (k.wakeupTask task).current = k.current := by
  rw [wakeupTask_eq]

variable {k} in
theorem wakeupTask_of_ne {task a : Addr} (h : a ≠ task) :
    (k.wakeupTask task).task a = k.task a := by
  unfold wakeupTask
  split
  · exact setTask_of_ne _ h
  · rfl

/-! ## `do_exit` -/

/-- The section with interrupts off. -/
def exitCommit (errno : Int) : Kernel :=
  let k' := k.setTask k.current
    { k.task k.current with state := .zombie, exitCode := errno, needResched := true }
  { k' with
    nrTask := k.nrTask - 1
    glbPidMap := freePid k.glbPidMap (k.task k.current).pid }

/-! ## `schedule` -/

def runnable (t : Addr) : Bool := decide ((k.task t).state = .runnable)

/-- The loop of `schedule`, from `le` with `task_next` so far: `none` if `fuel` nodes do not bring it
to an end. -/
def pickLoop (last : TaskNode) : Nat → TaskNode → Option Addr → Option (Option Addr)
  | 0, _, _ => none
  | fuel + 1, le, taskNext =>
    if le = last then some taskNext
    else
      match le with
      | .head _ => pickLoop last fuel (k.links.next le) taskNext
      | .entry t =>
        if k.runnable t then some (some t) else pickLoop last fuel (k.links.next le) (some t)

/-- `task_run`. -/
def taskRun (task : Addr) : Kernel :=
  if task ≠ k.current then { k with current := task } else k

/-- Where the loop of `schedule` starts and stops. -/
def scanStart : TaskNode :=
  if k.current = k.glbIdleTask then taskList else .entry k.current

/-- The task `schedule` settles on after its loop. -/
def settle : Option Addr → Addr
  | some t => if k.runnable t then t else k.glbIdleTask
  | none => k.glbIdleTask

def schedule (fuel : Nat) : Option Kernel :=
  let k := k.setTask k.current { k.task k.current with needResched := false }
  (k.pickLoop k.scanStart fuel (k.links.next k.scanStart) none).map fun taskNext =>
    let taskNext := k.settle taskNext
    let k := k.setTask taskNext
      { k.task taskNext with runsTime := u32 ((k.task taskNext).runsTime + 1) }
    if taskNext ≠ k.current then k.taskRun taskNext else k

end Kernel

end Hurlex.Task
