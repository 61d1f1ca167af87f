import Hurlex.Task.Progress

/-!
# Round-robin dispatch

**`schedule_roundRobin`**: on every task list a run gets to, and whichever of its tasks is current,
`schedule` goes to the next runnable one, and as many calls as there are runnable tasks run each of
them once.
-/

namespace Hurlex.Task

open Lib

/-- What `schedule` owes the tasks of the list, called in `k`. -/
structure RoundRobin (k : Kernel) (tasks : List Addr) : Prop where
  /-- It ends, with the next runnable task in circular order. -/
  next : ∃ t, nextRound k.runnable tasks k.current = some t ∧
    ∀ k', Dispatches k k' ↔ k' = k.dispatched t
  runnable : ∀ k', Dispatches k k' → (k.task k'.current).state = .runnable
  /-- It stays with the current task only if that is idle and there is nothing else to run. -/
  self : ∀ k', Dispatches k k' → k'.current = k.current →
    k.current = k.glbIdleTask ∧ ∀ t ∈ tasks, t ≠ k.current → (k.task t).state ≠ .runnable
  /-- A round of calls runs every runnable task once, and ends where it started. -/
  round : (k.task k.current).state = .runnable → ∀ f : Nat → Kernel, f 0 = k →
    (∀ n < (tasks.filter k.runnable).length, Dispatches (f n) (f (n + 1))) →
      ((List.range (tasks.filter k.runnable).length).map fun n => (f (n + 1)).current).Perm
        (tasks.filter k.runnable) ∧
      (f (tasks.filter k.runnable).length).current = k.current

variable {k k' : Kernel} {tasks : List Addr}

theorem TaskList.nextRound_of_dispatches (h : TaskList k tasks) (hc : k.current ∈ tasks)
    (hd : Dispatches k k') :
    nextRound k.runnable tasks k.current = some k'.current ∧ k' = k.dispatched k'.current := by
  obtain ⟨t, ht, hiff⟩ := h.dispatches_iff hc
  obtain rfl := (hiff k').1 hd
  exact ⟨ht, rfl⟩

/-- A dispatch leaves the list and the states as they are. -/
theorem TaskList.dispatched (h : TaskList k tasks) (t : Addr) : TaskList (k.dispatched t) tasks :=
  h.frame rfl rfl (dispatched_state k t _)

/-- The calls of a round, one after the other. -/
theorem TaskList.calls (h : TaskList k tasks) (hc : k.current ∈ tasks) {f : Nat → Kernel} {r : Nat}
    (h0 : f 0 = k) (hf : ∀ n < r, Dispatches (f n) (f (n + 1))) :
    ∀ n ≤ r, TaskList (f n) tasks ∧ (f n).current ∈ tasks ∧ (f n).runnable = k.runnable
  | 0, _ => by rw [h0]; exact ⟨h, hc, rfl⟩
  | n + 1, hn => by
    obtain ⟨hl, hm, hr⟩ := h.calls hc h0 hf n (by omega)
    obtain ⟨hnext, heq⟩ := hl.nextRound_of_dispatches hm (hf n hn)
    refine ⟨?_, nextRound_mem hnext, ?_⟩
    · rw [heq]
      exact hl.dispatched _
    · rw [heq, dispatched_runnable, hr]

theorem TaskList.roundRobin (h : TaskList k tasks) (hc : k.current ∈ tasks) :
    RoundRobin k tasks where
  next := h.dispatches_iff hc
  runnable k' hd := by
    have hp : k.runnable k'.current = true :=
      nextRound_accepted (h.nextRound_of_dispatches hc hd).1
    exact of_decide_eq_true hp
  self k' hd hs := by
    have hnext := (h.nextRound_of_dispatches hc hd).1
    rw [hs] at hnext
    obtain ⟨pre, post, rfl, hpre⟩ := List.eq_append_cons_of_mem hc
    have hpost : k.current ∉ post := (List.nodup_cons.1 (List.nodup_append.1 h.nodup).2.1).1
    rw [nextRound_split hpre, List.find?_append] at hnext
    -- the current task is reached only when everything before it was passed over
    have hnone : (post ++ pre).find? k.runnable = none := by
      cases hfind : (post ++ pre).find? k.runnable with
      | none => rfl
      | some d =>
        rw [hfind, Option.some_or] at hnext
        have hd := List.mem_of_find?_eq_some hfind
        rw [Option.some.inj hnext] at hd
        exact ((List.mem_append.1 hd).elim hpost hpre).elim
    have others : ∀ t ∈ pre ++ k.current :: post, t ≠ k.current → (k.task t).state ≠ .runnable := by
      intro t ht htc hrun
      have hm : t ∈ post ++ pre := by
        simp only [List.mem_append, List.mem_cons] at ht ⊢
        tauto
      exact List.find?_eq_none.1 hnone t hm (decide_eq_true hrun)
    refine ⟨?_, others⟩
    by_contra hne
    exact others _ h.idle_mem (Ne.symm hne) h.idle_runnable
  round hrun f h0 hf := by
    have calls := h.calls hc h0 hf
    have hnext : ∀ n < (tasks.filter k.runnable).length,
        nextRound k.runnable tasks (f n).current = some (f (n + 1)).current := by
      intro n hn
      obtain ⟨hl, hm, hr⟩ := calls n (by omega)
      rw [← hr]
      exact (hl.nextRound_of_dispatches hm (hf n hn)).1
    have hmem : (f 0).current ∈ tasks := by rw [h0]; exact hc
    have hp : k.runnable (f 0).current = true := by rw [h0]; exact decide_eq_true hrun
    refine ⟨?_, ?_⟩
    · rw [round_eq_rotate (f := fun n => (f n).current) hmem hp h.nodup rfl hnext]
      exact List.rotate_perm _ _
    · rw [round_end (f := fun n => (f n).current) hmem hp h.nodup rfl hnext, h0]

/-- **Round-robin dispatch**, in every state a run gets to and from whichever task is current. -/
theorem schedule_roundRobin {es : List Ev} {s : Sys} (h : Run es s) :
    ∃ tasks, LinkRing s.links taskList (tasks.map .entry) ∧
      tasks.getLast? = some s.glbIdleTask ∧
      ∀ c ∈ tasks, RoundRobin { s.toKernel with current := c } tasks := by
  obtain ⟨tasks, hi⟩ := h.inv
  refine ⟨tasks, hi.list.ring, hi.list.idle_last, fun c hc => ?_⟩
  have hl : TaskList { s.toKernel with current := c } tasks :=
    ⟨hi.list.ring, hi.list.idle_last, hi.list.idle_runnable⟩
  exact hl.roundRobin hc

/-- With a ZOMBIE between two runnable tasks. -/
theorem schedule_roundRobin_lateFork :
    ∃ tasks, LinkRing lateFork.links taskList (tasks.map .entry) ∧
      tasks.getLast? = some lateFork.glbIdleTask ∧
      ∀ c ∈ tasks, RoundRobin { lateFork.toKernel with current := c } tasks :=
  schedule_roundRobin lateFork_run.1

end Hurlex.Task
