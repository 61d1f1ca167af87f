import Hurlex.Task.Interleave

/-!
# Going on with a run

A run that has come to a state goes on from it: `fork_run` takes a task through the whole of
`do_fork`, `tick_run` has the timer dispatch the next task. Both say what they leave alone, so that
longer interleavings can be put together from them: `lateFork` is one, in which two tasks of the list
have one number.
-/

namespace Hurlex.Task

open Lib

variable {es : List Ev} {s : Sys} {tasks post : List Addr} {t c d : Addr}

/-- `s` with the child `t` forked and awake. -/
def Sys.forked (s : Sys) (t : Addr) : Sys where
  toKernel := ((s.allocTaskStruct t).forkCommit t).wakeupTask t
  pc := s.pc
  taken := Function.update s.taken t true

theorem forked_task_of_ne {a : Addr} (h : a ≠ t) : (s.forked t).task a = s.task a := by
  show (((s.allocTaskStruct t).forkCommit t).wakeupTask t).task a = s.task a
  rw [Kernel.wakeupTask_of_ne h]
  exact (Kernel.setTask_of_ne _ h).trans (Kernel.setTask_of_ne _ h)

theorem forked_child_state : ((s.forked t).task t).state = .runnable := by
  have huninit : (((s.allocTaskStruct t).forkCommit t).task t).state = .uninit :=
    ((s.allocTaskStruct t).setTask_field TaskStruct.state (by rfl) t).trans
      (congrArg TaskStruct.state (Kernel.setTask_self ..))
  show ((((s.allocTaskStruct t).forkCommit t).wakeupTask t).task t).state = .runnable
  rw [Kernel.wakeupTask, if_pos (by rw [huninit]; exact TaskState.noConfusion), Kernel.setTask_self]

section Phases

def Sys.allocated (s : Sys) (t : Addr) : Sys :=
  { s.goto (.forkAlloc t) with
    toKernel := s.toKernel.allocTaskStruct t, taken := Function.update s.taken t true }

def Sys.committed (s : Sys) (t : Addr) : Sys :=
  { s.goto (.forkListed t) with toKernel := s.toKernel.forkCommit t }

def Sys.woken (s : Sys) (t : Addr) : Sys :=
  { s.goto .user with toKernel := s.toKernel.wakeupTask t }

theorem allocated_pc (s : Sys) (t : Addr) :
    (s.allocated t).pc (s.allocated t).current = .forkAlloc t := goto_pc_self s _

theorem committed_pc (s : Sys) (t : Addr) :
    (s.committed t).pc (s.committed t).current = .forkListed t := goto_pc_self s _

theorem forked_eq (hpc : s.pc s.current = .user) :
    (((s.goto .forkChecked).allocated t).committed t).woken t = s.forked t := by
  have pcs : (((((s.goto .forkChecked).allocated t).committed t).woken t)).pc = s.pc := by
    show Function.update (Function.update (Function.update (Function.update s.pc s.current
      .forkChecked) s.current (.forkAlloc t)) s.current (.forkListed t)) s.current .user = s.pc
    rw [Function.update_idem, Function.update_idem, Function.update_idem, ← hpc,
      Function.update_eq_self]
  exact congrArg (Sys.mk (s.forked t).toKernel · (s.forked t).taken) pcs

/-- **A fork that is not interrupted.** -/
theorem fork_run (h : Run es s) (hi : Inv s tasks) (hpc : s.pc s.current = .user)
    (hlt : s.nrTask < maxTask) (ht : s.taken t = false) :
    Run (.wake t :: .commit t :: .alloc t :: .check :: es) (s.forked t) ∧
      Inv (s.forked t) (t :: tasks) := by
  have h1 : Step s .check (s.goto .forkChecked) := .check hpc hlt
  have h2 : Step (s.goto .forkChecked) (.alloc t) ((s.goto .forkChecked).allocated t) :=
    .alloc (goto_pc_self s _) ht
  have h3 : Step ((s.goto .forkChecked).allocated t) (.commit t)
      (((s.goto .forkChecked).allocated t).committed t) := .commit (allocated_pc _ t)
  have h4 : Step (((s.goto .forkChecked).allocated t).committed t) (.wake t)
      ((((s.goto .forkChecked).allocated t).committed t).woken t) := .wake (committed_pc _ t)
  have hrun := (((h.step h1).step h2).step h3).step h4
  have hinv := (((hi.step h1).step h2).step h3).step h4
  rw [forked_eq hpc] at hrun hinv
  exact ⟨hrun, hinv⟩

/-- The rest of a fork whose test is past. -/
theorem commit_run (h : Run es s) (hi : Inv s tasks) (hpc : s.pc s.current = .forkChecked)
    (ht : s.taken t = false) :
    Run (.commit t :: .alloc t :: es) ((s.allocated t).committed t) ∧
      Inv ((s.allocated t).committed t) (t :: tasks) := by
  have h1 : Step s (.alloc t) (s.allocated t) := .alloc hpc ht
  have h2 : Step (s.allocated t) (.commit t) ((s.allocated t).committed t) :=
    .commit (allocated_pc s t)
  exact ⟨(h.step h1).step h2, (hi.step h1).step h2⟩

end Phases

/-- `s` with its current task past `do_exit`. -/
def Sys.gone (s : Sys) (errno : Int) : Sys :=
  { s.goto .exited with toKernel := s.toKernel.exitCommit errno }

theorem exit_run (h : Run es s) (hi : Inv s tasks) (hpc : s.pc s.current = .user)
    (hidle : s.current ≠ s.glbIdleTask) (errno : Int) :
    Run (.exit errno :: es) (s.gone errno) ∧ Inv (s.gone errno) tasks :=
  ⟨h.step (.exit hpc hidle), hi.exit hpc hidle errno⟩

/-- `s` with `d` dispatched. -/
def Sys.ticked (s : Sys) (d : Addr) : Sys := { s with toKernel := s.toKernel.dispatched d }

theorem tick_step (hi : Inv s tasks) (hd : nextRound s.runnable tasks s.current = some d) :
    Step s .tick (s.ticked d) := by
  obtain ⟨t, ht, hiff⟩ := hi.list.dispatches_iff hi.current
  obtain rfl := Option.some.inj (ht.symm.trans hd)
  exact .tick ((hiff _).2 rfl)

/-- **The timer** dispatches the next runnable task. -/
theorem tick_run (h : Run es s) (hi : Inv s tasks)
    (hd : nextRound s.runnable tasks s.current = some d) :
    Run (.tick :: es) (s.ticked d) ∧ Inv (s.ticked d) tasks :=
  ⟨h.step (tick_step hi hd), hi.step (tick_step hi hd)⟩

/-- The next task on the list, when it can run. -/
theorem nextRound_next (pre : List Addr) (hn : tasks.Nodup) (he : tasks = pre ++ c :: d :: post)
    (hd : s.runnable d = true) : nextRound s.runnable tasks c = some d := by
  subst he
  have hc : c ∉ pre := fun hc =>
    (List.nodup_append.1 hn).2.2 c hc c List.mem_cons_self rfl
  rw [nextRound_split hc]
  exact List.find?_cons_of_pos hd

/-- From the last task on to the first. -/
theorem nextRound_last (pre : List Addr) (hn : tasks.Nodup) (he : tasks = d :: (pre ++ [c]))
    (hd : s.runnable d = true) : nextRound s.runnable tasks c = some d := by
  subst he
  have hc : c ∉ d :: pre := fun hc =>
    (List.nodup_append.1 (List.cons_append ▸ hn : (d :: pre ++ [c]).Nodup)).2.2 c hc c
      List.mem_cons_self rfl
  rw [← List.cons_append, nextRound_split hc]
  exact List.find?_cons_of_pos hd

/-! ## A number used twice -/

/-- Idle has forked task 1, which ran and exited, and then task 2. -/
def lateFork : Sys := (((((start bare 0).forked 1).ticked 1).gone 0).ticked 0).forked 2

def lateForkEvents : List Ev :=
  [.wake 2, .commit 2, .alloc 2, .check, .tick, .exit 0, .tick, .wake 1, .commit 1, .alloc 1, .check]

theorem lateFork_run : Run lateForkEvents lateFork ∧ Inv lateFork [2, 1, 0] := by
  have h0 : Run [] (start bare 0) := .start bare 0
  have i0 : Inv (start bare 0) [0] := start_inv bare 0
  obtain ⟨h1, i1⟩ := fork_run (t := 1) h0 i0 rfl (by decide) (by decide)
  obtain ⟨h2, i2⟩ := tick_run h1 i1 (d := 1)
    (nextRound_last (c := 0) [] i1.list.nodup rfl (decide_eq_true forked_child_state))
  obtain ⟨h3, i3⟩ := exit_run h2 i2 rfl (by decide) 0
  obtain ⟨h4, i4⟩ := tick_run h3 i3 (d := 0)
    (nextRound_next (c := 1) [] i3.list.nodup rfl i3.list.runnable_idle)
  exact fork_run (t := 2) h4 i4 rfl (by decide +kernel) (by decide)

/-- Task 2 gets the number of task 1. -/
theorem lateFork_pids : (lateFork.task 1).state = .zombie ∧ (lateFork.task 1).pid = 1 ∧
    lateFork.live 2 = true ∧ (lateFork.task 2).pid = 1 := by decide +kernel

/-! ## Many forks -/

theorem forked_nrTask (s : Sys) (t : Addr) : (s.forked t).nrTask = s.nrTask + 1 := by
  show (((s.allocTaskStruct t).forkCommit t).wakeupTask t).nrTask = s.nrTask + 1
  rw [Kernel.wakeupTask_nrTask]
  rfl

/-- `n` forks in a row by a task that is not interrupted, up to the limit. -/
theorem fork_many (m : Addr) (h : Run es s) (hi : Inv s tasks) (hpc : s.pc s.current = .user)
    (hfree : ∀ a, m ≤ a → s.taken a = false) : ∀ n : Nat, s.nrTask + n ≤ maxTask →
      ∃ es' s' new, Run es' s' ∧ Inv s' (new ++ tasks) ∧ s'.nrTask = s.nrTask + n ∧
        s'.current = s.current ∧ s'.pc = s.pc ∧ (∀ a, m + n ≤ a → s'.taken a = false) ∧
        ∀ a ∈ tasks, s'.task a = s.task a
  | 0, _ => ⟨es, s, [], h, hi, by simp, rfl, rfl, hfree, fun _ _ => rfl⟩
  | n + 1, hn => by
    have hn' : s.nrTask + n + 1 ≤ maxTask := by
      push_cast at hn
      omega
    obtain ⟨es', s', new, h', hi', hnr, hcur, hpcs, hfree', hsame⟩ :=
      fork_many m h hi hpc hfree n (by omega)
    have hpc' : s'.pc s'.current = .user := by rw [hpcs, hcur, hpc]
    have ht : s'.taken (m + n) = false := hfree' _ (Nat.le_refl _)
    obtain ⟨hrun, hinv⟩ := fork_run h' hi' hpc' (by rw [hnr]; omega) ht
    refine ⟨_, s'.forked (m + n), (m + n) :: new, hrun, hinv, ?_, ?_, hpcs, fun a ha => ?_,
      fun a ha => ?_⟩
    · rw [forked_nrTask, hnr]
      push_cast
      omega
    · exact (Kernel.wakeupTask_current _ _).trans hcur
    · have hlt : m + n < a := ha
      exact (Function.update_of_ne (Nat.ne_of_gt hlt) ..).trans (hfree' a (Nat.le_of_lt hlt))
    · have hne : a ≠ m + n := by
        rintro rfl
        have := hi'.taken _ (List.mem_append_right _ ha)
        rw [ht] at this
        exact Bool.noConfusion this
      rw [forked_task_of_ne hne, hsame a ha]

end Hurlex.Task
