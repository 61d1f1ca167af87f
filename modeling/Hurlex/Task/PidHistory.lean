import Hurlex.Task.Progress

/-!
# Process numbers over whole runs

**`run_bookkept`**: the pid map and `nr_task` describe the tasks on the list that are not ZOMBIE, and
`do_fork` never runs out of numbers.

A ZOMBIE keeps its number on the list, but not in the map. Numbers are handed out smallest first, so
the first `do_fork` after a `do_exit` gives the number of a ZOMBIE a second time:
**`uniquePids_iff`**.
-/

namespace Hurlex.Task

open Lib

/-- `t` is met on the walk of `task_list`. -/
def Listed (k : Kernel) (t : Addr) : Prop := k.links.OnList taskList (.entry t)

variable {s s' : Sys} {tasks : List Addr} {es : List Ev} {e : Ev} {t u : Addr}

theorem Core.listed_iff (h : Core s tasks) (t : Addr) : Listed s.toKernel t ↔ t ∈ tasks := by
  rw [Listed, h.list.ring.onList_iff, List.mem_map]
  constructor
  · rintro ⟨u, hu, he⟩
    exact Node.entry.inj he ▸ hu
  · exact fun ht => ⟨t, ht, rfl⟩

/-! ## Live tasks -/

/-- The books agree with the list. -/
structure Bookkept (s : Sys) : Prop where
  bit : ∀ p < maxPid, pidBit s.glbPidMap p = true ↔
    ∃! t, Listed s.toKernel t ∧ s.live t = true ∧ (s.task t).pid = (p : Nat)
  count : s.nrTask = Set.ncard {t | Listed s.toKernel t ∧ s.live t = true}
  alloc : ∀ t, s.pc s.current = .forkAlloc t → (allocPid s.glbPidMap).2 ≠ -1

theorem mem_livePids {k : Kernel} {x : Int} :
    x ∈ k.livePids tasks ↔ ∃ t ∈ tasks, k.live t = true ∧ (k.task t).pid = x := by
  simp only [Kernel.livePids, List.mem_map, List.mem_filter, and_assoc]

theorem Inv.bookkept (h : Inv s tasks) : Bookkept s where
  bit p hp := by
    rw [h.numbers.bit p hp, mem_livePids]
    constructor
    · rintro ⟨t, ht, hlive, hpid⟩
      refine ⟨t, ⟨(h.listed_iff t).2 ht, hlive, hpid⟩, fun u ⟨hu, hul, hup⟩ => ?_⟩
      exact List.inj_on_of_nodup_map h.numbers.nodup
        (List.mem_filter.2 ⟨(h.listed_iff u).1 hu, hul⟩) (List.mem_filter.2 ⟨ht, hlive⟩)
        (hup.trans hpid.symm)
    · rintro ⟨t, ⟨ht, hlive, hpid⟩, -⟩
      exact ⟨t, (h.listed_iff t).1 ht, hlive, hpid⟩
  count := by
    have hset : {t | Listed s.toKernel t ∧ s.live t = true} =
        ((tasks.filter s.live).toFinset : Set Addr) := by
      ext t
      simp only [Set.mem_ofPred_eq, List.coe_toFinset, List.mem_filter, h.listed_iff t]
    rw [hset, Set.ncard_coe_finset, List.toFinset_card_of_nodup (h.list.nodup.filter _), h.nr,
      Kernel.livePids, List.length_map]
  alloc t _ := by
    have hroom := h.room
    obtain ⟨p, -, -, hp, -⟩ := h.numbers.alloc (by omega)
    rw [hp]
    omega

/-- **The books are right** in every state of every interleaving. -/
theorem run_bookkept (h : Run es s) : Bookkept s := by
  obtain ⟨tasks, hi⟩ := h.inv
  exact hi.bookkept

theorem run_bookkept_lateFork : Bookkept lateFork := run_bookkept lateFork_run.1

/-! ## All tasks -/

/-- No two tasks on the list have the same number. -/
def UniquePids (k : Kernel) : Prop :=
  ∀ t u, Listed k t → Listed k u → (k.task t).pid = (k.task u).pid → t = u

/-- No `do_fork` took its number after a task had exited. -/
def NoLateFork : List Ev → Prop
  | [] => True
  | .commit _ :: es => (∀ errno, .exit errno ∉ es) ∧ NoLateFork es
  | _ :: es => NoLateFork es

/-- The numbers on the list, if none was ever given back: counting up from the end. -/
def pidsDown : Nat → List Int
  | 0 => []
  | n + 1 => (n : Int) :: pidsDown n

theorem mem_pidsDown {x : Int} : ∀ {n : Nat}, x ∈ pidsDown n ↔ ∃ p < n, x = (p : Nat)
  | 0 => by simp [pidsDown]
  | n + 1 => by
    rw [pidsDown, List.mem_cons, mem_pidsDown]
    constructor
    · rintro (rfl | ⟨p, hp, rfl⟩)
      · exact ⟨n, Nat.lt_succ_self n, rfl⟩
      · exact ⟨p, by omega, rfl⟩
    · rintro ⟨p, hp, rfl⟩
      by_cases hpn : p = n
      · exact Or.inl (by rw [hpn])
      · exact Or.inr ⟨p, by omega, rfl⟩

theorem nodup_pidsDown : ∀ n : Nat, (pidsDown n).Nodup
  | 0 => List.nodup_nil
  | n + 1 => by
    refine List.nodup_cons.2 ⟨fun h => ?_, nodup_pidsDown n⟩
    obtain ⟨p, hp, he⟩ := mem_pidsDown.1 h
    omega

def Kernel.pids (k : Kernel) (tasks : List Addr) : List Int := tasks.map fun t => (k.task t).pid

theorem Core.unique_iff_nodup (h : Core s tasks) :
    UniquePids s.toKernel ↔ (s.pids tasks).Nodup := by
  constructor
  · intro hu
    refine List.Nodup.map_on (fun t ht u hu' he => ?_) h.list.nodup
    exact hu t u ((h.listed_iff t).2 ht) ((h.listed_iff u).2 hu') he
  · intro hn t u ht hu he
    exact List.inj_on_of_nodup_map hn ((h.listed_iff t).1 ht) ((h.listed_iff u).1 hu) he

/-! ### One step -/

/-- The number of a listed task is settled, and only the exiting task becomes a ZOMBIE. -/
theorem Inv.step_task (h : Inv s tasks) (hs : Step s e s') {a : Addr} (ha : a ∈ tasks) :
    (s'.task a).pid = (s.task a).pid ∧ ((s'.task a).state = .zombie ↔
      (s.task a).state = .zombie ∨ (∃ errno, e = .exit errno) ∧ a = s.current) := by
  cases hs with
  | refused | check => simp
  | @alloc t hpc ht =>
    have hat : a ≠ t := by
      rintro rfl
      rw [h.taken a ha] at ht
      exact Bool.noConfusion ht
    simp only [Kernel.allocTaskStruct, Kernel.setTask_of_ne _ hat]
    simp
  | @commit t hpc =>
    have hat : a ≠ t := ne_of_mem_of_not_mem ha (h.child _ _ hpc).2.1
    simp only [Kernel.forkCommit, Kernel.setTask_of_ne _ hat]
    simp
  | wake hpc =>
    obtain ⟨hz, hp⟩ := wakeupTask_same s.toKernel _ a
    exact ⟨hp, by simpa using hz⟩
  | exit hpc hidle =>
    refine ⟨s.toKernel.setTask_field TaskStruct.pid (by rfl) a, ?_⟩
    by_cases hac : a = s.current
    · subst hac
      simp [Kernel.exitCommit]
    · simp only [Kernel.exitCommit, Kernel.setTask_of_ne _ hac]
      simp [hac]
  | tick hd =>
    obtain ⟨t, -, hiff⟩ := h.list.dispatches_iff h.current
    obtain rfl := (hiff _).1 hd
    refine ⟨dispatched_pid _ t a, ?_⟩
    simp [dispatched_state]

/-- A commit puts the smallest free number in front, every other event keeps the numbers. -/
theorem Inv.step_pids (h : Inv s tasks) (hs : Step s e s') : s'.pids (e.list tasks) =
    match e with
    | .commit _ => (allocPid s.glbPidMap).2 :: s.pids tasks
    | _ => s.pids tasks := by
  have same : s'.pids tasks = s.pids tasks :=
    List.map_congr_left fun a ha => (h.step_task hs ha).1
  cases hs with
  | @commit t hpc =>
    have self : ((s.forkCommit t).task t).pid = (allocPid s.glbPidMap).2 :=
      congrArg TaskStruct.pid (Kernel.setTask_self ..)
    show ((s.forkCommit t).task t).pid :: (s.forkCommit t).pids tasks = _
    rw [self]
    exact congrArg _ same
  | refused | check | alloc | wake | exit | tick => exact same

/-! ### Whole runs -/

/-- What the history says about the numbers on the list. -/
structure PidsAfter (es : List Ev) (s : Sys) (tasks : List Addr) : Prop where
  live : (∀ errno, .exit errno ∉ es) → ∀ t ∈ tasks, (s.task t).state ≠ .zombie
  zombie : ∀ errno, .exit errno ∈ es → ∃ t ∈ tasks, (s.task t).state = .zombie
  early : NoLateFork es → s.pids tasks = pidsDown tasks.length
  late : ¬ NoLateFork es → ¬ (s.pids tasks).Nodup

/-- With every task live the smallest free number is the next one. -/
theorem Inv.commit_early (h : Inv s tasks) (hl : ∀ t ∈ tasks, (s.task t).state ≠ .zombie)
    (hp : s.pids tasks = pidsDown tasks.length) : (allocPid s.glbPidMap).2 = tasks.length := by
  have hroom := h.room
  obtain ⟨p, -, ⟨hnew, hmin⟩, h2, -⟩ := h.numbers.alloc (by omega)
  have hfilter : tasks.filter s.live = tasks :=
    List.filter_eq_self.2 fun t ht => decide_eq_true (hl t ht)
  have hall : s.livePids tasks = pidsDown tasks.length := by
    rw [Kernel.livePids, hfilter]
    exact hp
  rw [hall] at hnew hmin
  have hge : ¬ p < tasks.length := fun hlt => hnew (mem_pidsDown.2 ⟨p, hlt, rfl⟩)
  have hle : ¬ tasks.length < p := fun hlt => by
    obtain ⟨q, hq, he⟩ := mem_pidsDown.1 (hmin _ hlt)
    omega
  rw [h2]
  omega

/-- With a ZOMBIE on the list it is one that the list already has. -/
theorem Inv.commit_late (h : Inv s tasks) {z : Addr} (hz : z ∈ tasks)
    (hzs : (s.task z).state = .zombie) (hp : s.pids tasks = pidsDown tasks.length) :
    (allocPid s.glbPidMap).2 ∈ s.pids tasks := by
  have hroom := h.room
  obtain ⟨p, -, ⟨hnew, hmin⟩, h2, -⟩ := h.numbers.alloc (by omega)
  have hnd : (s.pids tasks).Nodup := hp ▸ nodup_pidsDown _
  have hzp : (s.task z).pid ∈ s.pids tasks := List.mem_map.2 ⟨z, hz, rfl⟩
  rw [hp] at hzp
  obtain ⟨q, hq, hzq⟩ := mem_pidsDown.1 hzp
  -- the number of the ZOMBIE is free
  have hfree : (q : Int) ∉ s.livePids tasks := by
    intro hm
    obtain ⟨u, hu, hlive, hup⟩ := mem_livePids.1 hm
    obtain rfl := List.inj_on_of_nodup_map hnd hu hz (hup.trans hzq.symm)
    exact (of_decide_eq_true hlive) hzs
  have hpq : p ≤ q := by
    by_contra hlt
    exact hfree (hmin q (by omega))
  rw [h2, hp]
  exact mem_pidsDown.2 ⟨p, by omega, rfl⟩

theorem pidsAfter_start (k : Kernel) (idleTask : Addr) :
    PidsAfter [] (start k idleTask) [idleTask] where
  live _ t ht := by
    have hz := ((start_inv k idleTask).exited t ht).not.1 Pc.noConfusion
    exact hz
  zombie errno h := absurd h List.not_mem_nil
  early _ := by
    obtain ⟨p, -, ⟨-, hmin⟩, h2, -⟩ := numbers_zero.alloc (show 0 < 8192 by decide)
    have hp : p = 0 := by
      by_contra hne
      exact absurd (hmin 0 (by omega)) List.not_mem_nil
    show [((start k idleTask).task idleTask).pid] = [0]
    rw [start_idle, h2, hp]
    rfl
  late h := absurd trivial h

/-- The events that neither number a task nor end one. -/
def Ev.idle : Ev → Prop
  | .commit _ | .exit _ => False
  | _ => True

theorem PidsAfter.step_idle (hi : Inv s tasks) (h : PidsAfter es s tasks) (hs : Step s e s')
    (he : e.idle) : PidsAfter (e :: es) s' (e.list tasks) := by
  have hexit (errno : Int) : e ≠ .exit errno := by
    rintro rfl
    exact he
  have hlist : e.list tasks = tasks := by cases e <;> first | rfl | exact he.elim
  have hfork : NoLateFork (e :: es) ↔ NoLateFork es := by
    cases e <;> first | exact Iff.rfl | exact he.elim
  have hpids : s'.pids tasks = s.pids tasks :=
    List.map_congr_left fun a ha => (hi.step_task hs ha).1
  have hstate {a : Addr} (ha : a ∈ tasks) :
      (s'.task a).state = .zombie ↔ (s.task a).state = .zombie := by
    rw [(hi.step_task hs ha).2]
    exact ⟨fun h => h.resolve_right fun hc => hc.1.elim hexit, Or.inl⟩
  rw [hlist]
  refine ⟨fun hno t ht => (hstate ht).not.2 (h.live (fun errno hm => ?_) t ht), fun errno hm => ?_,
    fun hf => ?_, fun hf => ?_⟩
  · exact hno errno (List.mem_cons_of_mem _ hm)
  · obtain ⟨t, ht, hz⟩ := h.zombie errno ((List.mem_cons.1 hm).resolve_left (hexit errno).symm)
    exact ⟨t, ht, (hstate ht).2 hz⟩
  · rw [hpids]
    exact h.early (hfork.1 hf)
  · rw [hpids]
    exact h.late fun hc => hf (hfork.2 hc)

theorem PidsAfter.step_exit (hi : Inv s tasks) (h : PidsAfter es s tasks) {errno : Int}
    (hs : Step s (.exit errno) s') : PidsAfter (.exit errno :: es) s' tasks := by
  have hpids : s'.pids tasks = s.pids tasks := hi.step_pids hs
  refine ⟨fun hno => absurd List.mem_cons_self (hno errno), fun _ _ => ?_, fun hf => ?_, fun hf => ?_⟩
  · exact ⟨s.current, hi.current, (hi.step_task hs hi.current).2.2 (Or.inr ⟨⟨errno, rfl⟩, rfl⟩)⟩
  · rw [hpids]
    exact h.early hf
  · rw [hpids]
    exact h.late hf

theorem PidsAfter.step_commit (hi : Inv s tasks) (h : PidsAfter es s tasks) {t : Addr}
    (hs : Step s (.commit t) s') : PidsAfter (.commit t :: es) s' (t :: tasks) := by
  have hpids : s'.pids (t :: tasks) = (allocPid s.glbPidMap).2 :: s.pids tasks := hi.step_pids hs
  have hi' : Inv s' (t :: tasks) := hi.step hs
  have old {a : Addr} (ha : a ∈ tasks) :
      (s'.task a).state = .zombie ↔ (s.task a).state = .zombie := by
    rw [(hi.step_task hs ha).2]
    exact ⟨fun h => h.resolve_right fun hc => hc.1.elim fun _ => Ev.noConfusion, Or.inl⟩
  have hnew : (s'.task t).state ≠ .zombie := by
    cases hs with
    | commit hpc =>
      have self : ((s.forkCommit t).task t).state = (s.task t).state :=
        s.toKernel.setTask_field TaskStruct.state (by rfl) t
      rw [self, (hi.child _ _ hpc).2.2]
      exact TaskState.noConfusion
  refine ⟨fun hno a ha => ?_, fun errno hm => ?_, fun hf => ?_, fun hf => ?_⟩
  · rcases List.mem_cons.1 ha with rfl | ha
    · exact hnew
    · exact (old ha).not.2 (h.live (fun errno hm => hno errno (List.mem_cons_of_mem _ hm)) a ha)
  · obtain ⟨z, hz, hzs⟩ := h.zombie errno ((List.mem_cons.1 hm).resolve_left Ev.noConfusion)
    exact ⟨z, List.mem_cons_of_mem _ hz, (old hz).2 hzs⟩
  · rw [hpids, hi.commit_early (h.live hf.1) (h.early hf.2), h.early hf.2]
    rfl
  · rw [hpids, List.nodup_cons]
    rintro ⟨hnot, hnd⟩
    have hearly : NoLateFork es := by
      by_contra hc
      exact h.late hc hnd
    obtain ⟨errno, hm⟩ : ∃ errno, .exit errno ∈ es := by
      by_contra hc
      exact hf ⟨fun errno hm => hc ⟨errno, hm⟩, hearly⟩
    obtain ⟨z, hz, hzs⟩ := h.zombie errno hm
    exact hnot (hi.commit_late hz hzs (h.early hearly))

theorem PidsAfter.step (hi : Inv s tasks) (h : PidsAfter es s tasks) (hs : Step s e s') :
    PidsAfter (e :: es) s' (e.list tasks) := by
  cases e with
  | commit t => exact h.step_commit hi hs
  | exit errno => exact h.step_exit hi hs
  | refused | check | alloc | wake | tick => exact h.step_idle hi hs trivial

theorem Run.pidsAfter (h : Run es s) : ∃ tasks, Inv s tasks ∧ PidsAfter es s tasks := by
  induction h with
  | start k idleTask => exact ⟨_, start_inv k idleTask, pidsAfter_start k idleTask⟩
  | step _ hs ih =>
    obtain ⟨tasks, hi, hp⟩ := ih
    exact ⟨_, hi.step hs, hp.step hi hs⟩

/-- **When numbers are unique.** As long as no `do_fork` comes after a `do_exit`. -/
theorem uniquePids_iff (h : Run es s) : UniquePids s.toKernel ↔ NoLateFork es := by
  obtain ⟨tasks, hi, hp⟩ := h.pidsAfter
  rw [hi.unique_iff_nodup]
  constructor
  · intro hn
    by_contra hf
    exact hp.late hf hn
  · intro hf
    rw [hp.early hf]
    exact nodup_pidsDown _

theorem uniquePids_lateFork : UniquePids lateFork.toKernel ↔ NoLateFork lateForkEvents :=
  uniquePids_iff lateFork_run.1

/-- Two tasks with the number 1. -/
theorem not_uniquePids : ¬ ∀ (es : List Ev) (s : Sys), Run es s → UniquePids s.toKernel := by
  intro h
  obtain ⟨tasks, hi, hp⟩ := lateFork_run.1.pidsAfter
  refine hp.late (fun hf => ?_) (hi.unique_iff_nodup.1 (h _ _ lateFork_run.1))
  exact hf.1 0 (by decide)

end Hurlex.Task
