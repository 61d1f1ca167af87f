import Hurlex.Lib.Cyclic
import Hurlex.Task.Task

/-!
# What `schedule` dispatches (`kernel/sched/sched.c`, lines 30 to 64)

`schedule` starts at the current task, or at the head of the list while idle is current, goes round until
it finds a runnable task, and falls back to idle. On a closed task list with the idle task last it comes
to an end and dispatches the next runnable task in circular order: **`dispatches_iff`**. The two starting
points of its loop, the list head in the middle of the walk and the fallback to idle all amount to that.

The list is a ring of the nodes in the `task_struct`s and the head (`LinkRing`), as `lib/list.h` keeps it.

Out of scope: who changes the list between two calls (`Task.Interleave`), and the switch of stacks that
`task_run` ends in (`Task.SwitchTo`).
-/

namespace Hurlex.Task

open Lib

/-- The tasks of the list, in order from the head. The idle task was put on it first, and stays
runnable. -/
structure TaskList (k : Kernel) (tasks : List Addr) : Prop where
  ring : LinkRing k.links taskList (tasks.map .entry)
  idle_last : tasks.getLast? = some k.glbIdleTask
  idle_runnable : (k.task k.glbIdleTask).state = .runnable

/-- `schedule` goes from `k` to `k'`. -/
def Dispatches (k k' : Kernel) : Prop := ∃ fuel, k.schedule fuel = some k'

/-- The state in which `t` runs on. -/
def Kernel.dispatched (k : Kernel) (t : Addr) : Kernel :=
  let k := k.setTask k.current { k.task k.current with needResched := false }
  { k.setTask t { k.task t with runsTime := u32 ((k.task t).runsTime + 1) } with current := t }

variable {k k' : Kernel} {tasks pre post : List Addr} {t c : Addr}

/-! ## The loop -/

/-- The tasks among the nodes of a walk. -/
def entries : List TaskNode → List Addr
  | [] => []
  | .head _ :: xs => entries xs
  | .entry t :: xs => t :: entries xs

theorem entries_map (xs : List Addr) : entries (xs.map .entry) = xs := by
  induction xs with
  | nil => rfl
  | cons x xs ih => rw [List.map_cons, entries, ih]

theorem entries_append (xs ys : List TaskNode) : entries (xs ++ ys) = entries xs ++ entries ys := by
  induction xs with
  | nil => rfl
  | cons x xs ih => cases x with
    | head u => exact ih
    | entry t => exact congrArg (t :: ·) ih

theorem pickLoop_last {last : TaskNode} (n : Nat) (next : Option Addr) :
    k.pickLoop last (n + 1) last next = some next := by
  cases last <;> rw [Kernel.pickLoop, if_pos rfl]

/-- The list head is passed over. -/
theorem pickLoop_head {last : TaskNode} {u : Unit} (h : .head u ≠ last) (n : Nat)
    (next : Option Addr) : k.pickLoop last (n + 1) (.head u) next =
      k.pickLoop last n (k.links.next (.head u)) next := by
  rw [Kernel.pickLoop, if_neg h]

theorem pickLoop_entry {last : TaskNode} (h : .entry t ≠ last) (n : Nat) (next : Option Addr) :
    k.pickLoop last (n + 1) (.entry t) next =
      if k.runnable t then some (some t)
      else k.pickLoop last n (k.links.next (.entry t)) (some t) := by
  rw [Kernel.pickLoop, if_neg h]

/-- More fuel does not change where the loop ends. -/
theorem pickLoop_mono {last : TaskNode} {r : Option Addr} : ∀ {fuel : Nat} {le : TaskNode}
    {next : Option Addr}, k.pickLoop last fuel le next = some r → ∀ {fuel' : Nat}, fuel ≤ fuel' →
      k.pickLoop last fuel' le next = some r
  | 0, _, _, h, _, _ => by cases h
  | fuel + 1, le, next, h, fuel', hle => by
    obtain ⟨n, rfl⟩ : ∃ n, fuel' = n + 1 := ⟨fuel' - 1, by omega⟩
    by_cases hl : le = last
    · subst hl
      rw [pickLoop_last] at h ⊢
      exact h
    · cases le with
      | head u =>
        rw [pickLoop_head hl] at h ⊢
        exact pickLoop_mono h (by omega)
      | entry t =>
        rw [pickLoop_entry hl] at h ⊢
        by_cases ht : k.runnable t = true
        · rw [if_pos ht] at h ⊢
          exact h
        · rw [if_neg ht] at h ⊢
          exact pickLoop_mono h (by omega)

/-- Over the rest of a walk the loop finds the first runnable task, or ends with one that is not. -/
theorem pickLoop_suffix {h : TaskNode} : ∀ (suf pre : List TaskNode) (fuel : Nat) (x : TaskNode)
    (next : Option Addr), LinkRing k.links h (pre ++ suf) → suf.length < fuel →
      (suf ++ [h]).head? = some x → (∀ t, next = some t → k.runnable t = false) →
      ∃ r, k.pickLoop h fuel x next = some r ∧
        k.settle r = ((entries suf).find? k.runnable).getD k.glbIdleTask
  | [], _, fuel, x, next, _, hf, hx, hnext => by
    obtain ⟨n, rfl⟩ : ∃ n, fuel = n + 1 := ⟨fuel - 1, by simp at hf; omega⟩
    obtain rfl : h = x := by simpa using hx
    refine ⟨next, pickLoop_last n next, ?_⟩
    cases next with
    | none => rfl
    | some t => rw [Kernel.settle, if_neg (by simp [hnext t rfl])]; rfl
  | y :: suf, pre, fuel, x, next, hr, hf, hx, hnext => by
    obtain ⟨n, rfl⟩ : ∃ n, fuel = n + 1 := ⟨fuel - 1, by simp at hf; omega⟩
    obtain rfl : y = x := by simpa using hx
    have hyh : y ≠ h := by
      rintro rfl
      exact (List.nodup_cons.mp hr.nodup).1 (by simp)
    have hr' : LinkRing k.links h (pre ++ [y] ++ suf) := by simpa using hr
    have hlen : suf.length < n := by simp only [List.length_cons] at hf; omega
    cases y with
    | head u =>
      rw [pickLoop_head hyh]
      exact pickLoop_suffix suf _ n _ next hr' hlen hr.next_mem hnext
    | entry t =>
      rw [pickLoop_entry hyh]
      cases ht : k.runnable t with
      | true =>
        refine ⟨some t, by simp, ?_⟩
        rw [entries, List.find?_cons_of_pos ht, Kernel.settle, if_pos ht]
        rfl
      | false =>
        obtain ⟨r, hpick, hs⟩ := pickLoop_suffix suf _ n _ (some t) hr' hlen hr.next_mem
          fun u hu => Option.some.inj hu ▸ ht
        refine ⟨r, by simpa using hpick, ?_⟩
        rw [hs, entries, List.find?_cons_of_neg (by simp [ht])]

/-- The whole loop, from the node it starts at. -/
theorem pickLoop_ring {h : TaskNode} {nodes : List TaskNode} (hr : LinkRing k.links h nodes) :
    ∃ fuel r, k.pickLoop h fuel (k.links.next h) none = some r ∧
      k.settle r = ((entries nodes).find? k.runnable).getD k.glbIdleTask :=
  ⟨_, pickLoop_suffix nodes [] (nodes.length + 1) _ none hr (Nat.lt_succ_self _) hr.next_head
    fun _ ht => by cases ht⟩

/-! ## The task it settles on -/

/-- From a current task other than idle: around the list, past the head, and back. -/
theorem TaskList.ring_current (h : TaskList k (pre ++ c :: post)) :
    LinkRing k.links (.entry c) (post.map .entry ++ taskList :: pre.map .entry) := by
  have hr := h.ring
  rw [List.map_append, List.map_cons] at hr
  exact hr.rotate

theorem TaskList.idle_mem (h : TaskList k tasks) : k.glbIdleTask ∈ tasks :=
  List.mem_of_getLast? h.idle_last

theorem TaskList.nodup (h : TaskList k tasks) : tasks.Nodup :=
  List.Nodup.of_map _ (List.nodup_cons.1 h.ring.nodup).2

theorem TaskList.runnable_idle (h : TaskList k tasks) : k.runnable k.glbIdleTask = true :=
  decide_eq_true h.idle_runnable

/-- The loop of `schedule` settles on the next runnable task. -/
theorem TaskList.settle (h : TaskList k tasks) (hc : k.current ∈ tasks) :
    ∃ fuel r, k.pickLoop k.scanStart fuel (k.links.next k.scanStart) none = some r ∧
      nextRound k.runnable tasks k.current = some (k.settle r) := by
  obtain ⟨pre, post, rfl, hpre⟩ := List.eq_append_cons_of_mem hc
  rw [nextRound_split hpre]
  by_cases hi : k.current = k.glbIdleTask
  · -- idle is the last of the list, and the loop runs over all of it
    have hpost : post = [] := by
      by_contra hne
      have hlast := h.idle_last
      rw [List.getLast?_append_of_ne_nil _ (by simp), List.getLast?_cons_of_ne_nil hne] at hlast
      have hnd := (List.nodup_append.1 h.nodup).2.1
      exact (List.nodup_cons.1 hnd).1 (hi ▸ List.mem_of_getLast? hlast)
    subst hpost
    obtain ⟨fuel, r, hp, hs⟩ := pickLoop_ring h.ring
    refine ⟨fuel, r, by rw [Kernel.scanStart, if_pos hi]; exact hp, ?_⟩
    rw [hs, entries_map, List.nil_append]
    obtain ⟨d, hd⟩ := Option.isSome_iff_exists.1
      (List.find?_isSome.2 ⟨k.current, by simp, hi ▸ h.runnable_idle⟩ :
        ((pre ++ [k.current]).find? k.runnable).isSome)
    rw [hd, Option.getD_some]
  · -- idle is among the others, so the loop stops before it is back at the current task
    have hidle : k.glbIdleTask ∈ post ++ pre := by
      have := h.idle_mem
      simp only [List.mem_append, List.mem_cons] at this ⊢
      tauto
    obtain ⟨fuel, r, hp, hs⟩ := pickLoop_ring h.ring_current
    refine ⟨fuel, r, by rw [Kernel.scanStart, if_neg hi]; exact hp, ?_⟩
    rw [hs, entries_append, entries, entries_map, entries_map, List.find?_append]
    obtain ⟨d, hd⟩ := Option.isSome_iff_exists.1
      (List.find?_isSome.2 ⟨k.glbIdleTask, hidle, h.runnable_idle⟩ :
        ((post ++ pre).find? k.runnable).isSome)
    rw [hd, Option.getD_some, Option.some_or]

/-! ## `schedule` -/

/-- Clearing `need_resched` of the current task moves nothing. -/
def Kernel.cleared (k : Kernel) : Kernel :=
  k.setTask k.current { k.task k.current with needResched := false }

theorem cleared_state (k : Kernel) (t : Addr) : (k.cleared.task t).state = (k.task t).state :=
  k.setTask_field TaskStruct.state (by rfl) t

theorem cleared_runnable (k : Kernel) : k.cleared.runnable = k.runnable := by
  funext t
  rw [Kernel.runnable, cleared_state, Kernel.runnable]

theorem TaskList.cleared (h : TaskList k tasks) : TaskList k.cleared tasks where
  ring := h.ring
  idle_last := h.idle_last
  idle_runnable := (cleared_state k _).trans h.idle_runnable

/-- Running the current task on is no different from switching to it. -/
theorem ran_eq (k : Kernel) (t : Addr) :
    (let ran := k.cleared.setTask t
      { k.cleared.task t with runsTime := u32 ((k.cleared.task t).runsTime + 1) }
    if t ≠ ran.current then ran.taskRun t else ran) = k.dispatched t := by
  by_cases ht : t = k.current
  · subst ht
    exact if_neg (not_not.2 rfl)
  · exact (if_pos ht).trans (if_pos ht)

theorem schedule_eq (k : Kernel) (fuel : Nat) : k.schedule fuel =
    (k.cleared.pickLoop k.cleared.scanStart fuel (k.links.next k.cleared.scanStart) none).map
      fun r => k.dispatched (k.cleared.settle r) :=
  congrArg (Option.map · _) (funext fun r => ran_eq k (k.cleared.settle r))

/-- **`schedule` dispatches the next runnable task.** -/
theorem TaskList.dispatches_iff (h : TaskList k tasks) (hc : k.current ∈ tasks) :
    ∃ t, nextRound k.runnable tasks k.current = some t ∧
      ∀ k', Dispatches k k' ↔ k' = k.dispatched t := by
  obtain ⟨n, r, hp, hs⟩ := h.cleared.settle hc
  rw [cleared_runnable] at hs
  refine ⟨_, hs, fun k' => ⟨?_, ?_⟩⟩
  · rintro ⟨fuel, hf⟩
    rw [schedule_eq, Option.map_eq_some_iff] at hf
    obtain ⟨r', hp', rfl⟩ := hf
    have h1 := pickLoop_mono hp (Nat.le_max_left n fuel)
    have h2 := pickLoop_mono hp' (Nat.le_max_right n fuel)
    have heq : some r' = some r := h2.symm.trans h1
    rw [Option.some.inj heq]
  · rintro rfl
    refine ⟨n, ?_⟩
    rw [schedule_eq]
    exact congrArg (Option.map _) hp

end Hurlex.Task
