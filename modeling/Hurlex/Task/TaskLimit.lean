import Hurlex.Task.Progress

/-!
# The limit on tasks

`do_fork` (`arch/i386/task/task.c`) tests `nr_task` with interrupts on and counts the child in a later
section, without a second test. Between the two other tasks may fork.

**`run_taskLimit`**: the limit holds as long as each `do_fork` that passes the test leaves room for
those that have passed it before and have not counted their child yet; `exists_overLimit` is a run in
which one does not.
-/

namespace Hurlex.Task

open Lib

/-- A run all of whose steps satisfy `P`. -/
inductive RunWith (P : Sys → Ev → Sys → Prop) : List Ev → Sys → Prop where
  | start (k : Kernel) (idleTask : Addr) : RunWith P [] (start k idleTask)
  | step {es : List Ev} {s s' : Sys} {e : Ev} : RunWith P es s → Step s e s' → P s e s' →
      RunWith P (e :: es) s'

/-- The tasks between the test in `do_fork` and the section that counts the child. -/
def Sys.onTheirWay (s : Sys) : Set Addr := {a | s.pending a = true}

/-- A `do_fork` passes its test only when there is room for its child besides the children of the
`do_fork`s that are already past theirs. -/
def Spaced (s : Sys) (e : Ev) (_ : Sys) : Prop :=
  e = .check → s.nrTask + s.onTheirWay.ncard < maxTask

variable {P : Sys → Ev → Sys → Prop} {es : List Ev} {s s' : Sys} {e : Ev} {t : Addr}

theorem RunWith.run (h : RunWith P es s) : Run es s := by
  induction h with
  | start k idleTask => exact .start k idleTask
  | step _ hs _ ih => exact ih.step hs

/-- What a step does to the counter. -/
theorem Step.nrTask (h : Step s e s') : s'.nrTask = match e with
    | .commit _ => s.nrTask + 1
    | .exit _ => s.nrTask - 1
    | _ => s.nrTask := by
  cases h with
  | refused | check | alloc | commit | exit => rfl
  | @wake t _ =>
    exact s.wakeupTask_nrTask t
  | tick hd =>
    obtain ⟨fuel, hf⟩ := hd
    rw [schedule_eq, Option.map_eq_some_iff] at hf
    obtain ⟨r, -, rfl⟩ := hf
    rfl

/-! ## The tasks on their way -/

theorem onTheirWay_goto (s : Sys) (p : Pc) : (s.goto p).onTheirWay =
    if p.pending = true then insert s.current s.onTheirWay
    else s.onTheirWay \ {s.current} := by
  have hself := goto_pc_self s p
  split
  · next hp =>
    ext a
    by_cases ha : a = s.current
    · subst ha
      refine iff_of_true ?_ (Set.mem_insert ..)
      show ((s.goto p).pc s.current).pending = true
      rw [hself, hp]
    · have hne : ((s.goto p).pc a).pending = (s.pc a).pending := by rw [goto_pc_of_ne s p ha]
      rw [Set.mem_insert_iff, or_iff_right ha]
      exact iff_of_eq (congrArg (· = true) hne)
  · next hp =>
    ext a
    by_cases ha : a = s.current
    · subst ha
      refine iff_of_false (fun h => ?_) fun h => h.2 rfl
      have h : ((s.goto p).pc s.current).pending = true := h
      rw [hself] at h
      exact hp h
    · have hne : ((s.goto p).pc a).pending = (s.pc a).pending := by rw [goto_pc_of_ne s p ha]
      rw [Set.mem_sdiff_singleton, and_iff_left ha]
      exact iff_of_eq (congrArg (· = true) hne)

theorem mem_onTheirWay {p : Pc} (h : s.pc s.current = p) :
    s.current ∈ s.onTheirWay ↔ p.pending = true := by
  subst h
  exact Iff.rfl

theorem Run.finite_onTheirWay (h : Run es s) : s.onTheirWay.Finite := by
  obtain ⟨tasks, hi⟩ := h.inv
  refine tasks.toFinset.finite_toSet.subset fun a ha => ?_
  rw [Finset.mem_coe, List.mem_toFinset]
  refine hi.busy a fun hu => ?_
  have hp : (s.pc a).pending = true := ha
  rw [hu] at hp
  exact Bool.noConfusion hp

/-- What a step does to those on their way: a test lets one in, and counting a child lets one out. -/
theorem Step.onTheirWay (h : Step s e s') : match e with
    | .check => s'.onTheirWay = insert s.current s.onTheirWay
    | .commit _ => s.current ∈ s.onTheirWay ∧ s'.onTheirWay = s.onTheirWay \ {s.current}
    | _ => s'.onTheirWay = s.onTheirWay := by
  cases h with
  | refused _ _ => rfl
  | check _ _ => exact onTheirWay_goto s .forkChecked
  | @alloc t hpc _ =>
    exact (onTheirWay_goto s (.forkAlloc t)).trans (Set.insert_eq_of_mem ((mem_onTheirWay hpc).2 rfl))
  | @commit t hpc => exact ⟨(mem_onTheirWay hpc).2 rfl, onTheirWay_goto s (.forkListed t)⟩
  | wake hpc =>
    exact (onTheirWay_goto s .user).trans
      (Set.sdiff_singleton_eq_self fun h => Bool.noConfusion ((mem_onTheirWay hpc).1 h))
  | exit hpc _ =>
    exact (onTheirWay_goto s .exited).trans
      (Set.sdiff_singleton_eq_self fun h => Bool.noConfusion ((mem_onTheirWay hpc).1 h))
  | tick _ => rfl

/-! ## The limit -/

/-- Counted or on its way, every child has its place. -/
theorem Step.room (hr : Run es s) (h : Step s e s') (hs : Spaced s e s')
    (hroom : s.nrTask + s.onTheirWay.ncard ≤ maxTask) :
    s'.nrTask + s'.onTheirWay.ncard ≤ maxTask := by
  have hn := h.nrTask
  have hw := h.onTheirWay
  cases e with
  | check =>
    have hlt := hs rfl
    have hle := Set.ncard_insert_le s.current s.onTheirWay
    simp only at hn hw
    rw [hn, hw]
    omega
  | commit t =>
    obtain ⟨hmem, hw⟩ := hw
    have hcard := Set.ncard_sdiff_singleton_add_one hmem hr.finite_onTheirWay
    simp only at hn
    rw [hn, hw]
    omega
  | exit errno =>
    simp only at hn hw
    rw [hn, hw]
    omega
  | refused | alloc | wake | tick =>
    simp only at hn hw
    rw [hn, hw]
    exact hroom

theorem RunWith.room (h : RunWith Spaced es s) :
    s.nrTask + s.onTheirWay.ncard ≤ maxTask := by
  induction h with
  | start k idleTask =>
    have hnone : (Task.start k idleTask).onTheirWay = ∅ :=
      Set.eq_empty_of_forall_notMem fun _ h => Bool.noConfusion h
    rw [hnone, Set.ncard_empty]
    show (0 : Int) + 1 + (0 : Nat) ≤ maxTask
    decide
  | step hr hs hp ih => exact hs.room hr.run hp ih

/-- **When the limit holds**: in every run whose `do_fork`s pass the test only with room for all that
are on their way. -/
theorem run_taskLimit (h : RunWith Spaced es s) : s.nrTask ≤ maxTask := by
  have := h.room
  omega

/-- A step that is no test. -/
theorem RunWith.other (h : RunWith Spaced es s) (hs : Step s e s') (he : e ≠ .check) :
    RunWith Spaced (e :: es) s' := h.step hs fun hc => absurd hc he

/-- A fork with room for it that is not interrupted. -/
theorem RunWith.fork (h : RunWith Spaced es s) (hpc : s.pc s.current = .user)
    (hroom : s.nrTask + s.onTheirWay.ncard < maxTask) (ht : s.taken t = false) :
    RunWith Spaced (.wake t :: .commit t :: .alloc t :: .check :: es) (s.forked t) := by
  have h1 := h.step (.check hpc (by omega)) fun _ => hroom
  have h2 := h1.other (.alloc (goto_pc_self s _) ht) Ev.noConfusion
  have h3 := h2.other (.commit (allocated_pc _ t)) Ev.noConfusion
  have h4 := h3.other (.wake (committed_pc _ t)) Ev.noConfusion
  rw [← forked_eq hpc]
  exact h4

/-- Idle forks task 1, passes the test again and is interrupted; task 1 passes it too. -/
theorem run_taskLimit_two : ∃ s : Sys, s.onTheirWay.ncard = 2 ∧ s.nrTask ≤ maxTask := by
  have hstart := start_inv bare 0
  have hnone : (start bare 0).onTheirWay = ∅ :=
    Set.eq_empty_of_forall_notMem fun _ h => Bool.noConfusion h
  have h1 := RunWith.fork (t := 1) (.start bare 0) rfl
    (by rw [hnone, Set.ncard_empty]; decide) rfl
  obtain ⟨-, i1⟩ := fork_run (t := 1) (.start bare 0) hstart rfl (by decide) rfl
  have hnone1 : ((start bare 0).forked 1).onTheirWay = ∅ := hnone
  have n1 : ((start bare 0).forked 1).nrTask = 2 := forked_nrTask ..
  have hcur : ((start bare 0).forked 1).current = 0 := Kernel.wakeupTask_current ..
  generalize hs1 : (start bare 0).forked 1 = s1 at h1 i1 hnone1 n1 hcur
  have hlt : s1.nrTask < maxTask := by rw [n1]; decide
  have hrun1 : s1.runnable 1 = true := decide_eq_true (by subst hs1; exact forked_child_state)
  have c2 : Step s1 .check (s1.goto .forkChecked) := .check (by subst hs1; rfl) hlt
  have h2 := h1.step c2 fun _ => by rw [hnone1, Set.ncard_empty, n1]; decide
  have w2 : (s1.goto .forkChecked).onTheirWay = {0} := by
    rw [c2.onTheirWay, hnone1, hcur, insert_empty_eq]
  have t3 : Step (s1.goto .forkChecked) .tick ((s1.goto .forkChecked).ticked 1) := by
    refine tick_step (i1.step c2) ?_
    show nextRound s1.runnable [1, 0] s1.current = some 1
    rw [hcur]
    exact nextRound_last [] (by decide) rfl hrun1
  have h3 := h2.other t3 Ev.noConfusion
  have w3 := t3.onTheirWay
  have n3 := t3.nrTask
  simp only at w3 n3
  rw [w2] at w3
  have n2 : (s1.goto .forkChecked).nrTask = 2 := n1
  rw [n2] at n3
  have hpc : ((s1.goto .forkChecked).ticked 1).pc 1 = .user := by
    show (s1.goto .forkChecked).pc 1 = .user
    rw [goto_pc_of_ne s1 _ (by rw [hcur]; decide)]
    subst hs1
    rfl
  have c4 : Step ((s1.goto .forkChecked).ticked 1) .check
      (((s1.goto .forkChecked).ticked 1).goto .forkChecked) :=
    .check hpc (by rw [n3]; decide)
  have h4 := h3.step c4 fun _ => by rw [w3, Set.ncard_singleton, n3]; decide
  refine ⟨_, ?_, run_taskLimit h4⟩
  rw [c4.onTheirWay, w3]
  exact Set.ncard_pair (by decide : (1 : Addr) ≠ 0)

/-! ### One task too many -/

/-- Idle forks task 1, passes the test again, and is interrupted. Task 1 forks up to the limit. Idle
goes on. -/
theorem exists_overLimit : ∃ es s, Run es s ∧ s.nrTask = maxTask + 1 := by
  have h0 : Run [] (start bare 0) := .start bare 0
  obtain ⟨h1, i1⟩ := fork_run (t := 1) h0 (start_inv bare 0) rfl (by decide) (by decide)
  have n1 : ((start bare 0).forked 1).nrTask = 2 := forked_nrTask ..
  generalize hs1 : (start bare 0).forked 1 = s1 at h1 i1 n1
  -- idle is past the test, task 1 runs
  have h2 : Step s1 .check (s1.goto .forkChecked) := .check (by subst hs1; rfl) (by rw [n1]; decide)
  have hcur : s1.current = 0 := by
    subst hs1
    exact Kernel.wakeupTask_current ..
  have hrun1 : s1.runnable 1 = true := decide_eq_true (by subst hs1; exact forked_child_state)
  obtain ⟨h3, i3⟩ := tick_run (d := 1) (h1.step h2) (i1.step h2)
    (by
      show nextRound s1.runnable [1, 0] s1.current = some 1
      rw [hcur]
      exact nextRound_last [] (by decide) rfl hrun1)
  -- task 1 forks all that may still be forked
  have pcs : s1.pc = fun _ => .user := by subst hs1; rfl
  have free : ∀ a, 2 ≤ a → s1.taken a = false := by
    subst hs1
    intro a ha
    show Function.update (fun t => decide (t = 0)) 1 true a = false
    rw [Function.update_of_ne (Nat.ne_of_gt ha)]
    exact decide_eq_false (Nat.ne_of_gt (Nat.lt_of_succ_lt ha))
  have hidle : s1.glbIdleTask = 0 := by
    subst hs1
    exact Kernel.wakeupTask_glbIdleTask ..
  have hrun0 : s1.runnable 0 = true :=
    decide_eq_true (hidle ▸ i1.list.idle_runnable :)
  obtain ⟨es4, s4, new, h4, i4, n4, hcur4, hpc4, free4, same4⟩ := fork_many 2 h3 i3
    (by
      show (s1.goto .forkChecked).pc 1 = .user
      rw [goto_pc_of_ne s1 _ (by rw [hcur]; decide), pcs])
    (fun a ha => free a ha) 4094
    (by
      show s1.nrTask + 4094 ≤ maxTask
      rw [n1]
      decide)
  -- idle goes on
  have hnd : (new ++ [1, 0]).Nodup := i4.list.nodup
  obtain ⟨h5, i5⟩ := tick_run (d := 0) h4 i4
    (by
      rw [show s4.current = 1 from hcur4]
      refine nextRound_next new hnd rfl ?_
      rw [Kernel.runnable, same4 0 (by decide)]
      show ((s1.goto .forkChecked).dispatched 1).runnable 0 = true
      rw [dispatched_runnable]
      exact hrun0)
  obtain ⟨h6, i6⟩ := commit_run (t := 2 + 4094) h5 i5
    (by
      show s4.pc 0 = .forkChecked
      rw [hpc4, ← hcur]
      exact goto_pc_self s1 _)
    (free4 _ (Nat.le_refl _))
  refine ⟨_, _, h6, ?_⟩
  show s4.nrTask + 1 = maxTask + 1
  rw [n4]
  show s1.nrTask + 4094 + 1 = maxTask + 1
  rw [n1]
  decide

theorem not_taskLimit : ¬ ∀ (es : List Ev) (s : Sys), Run es s → s.nrTask ≤ maxTask := by
  intro h
  obtain ⟨es, s, hr, hn⟩ := exists_overLimit
  have := h es s hr
  omega

end Hurlex.Task
