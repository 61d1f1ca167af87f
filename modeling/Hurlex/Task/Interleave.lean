import Mathlib.Data.Set.Card
import Hurlex.Task.Sched

/-!
# Tasks under preemption

Every task is somewhere in its own code (`Pc`): outside, at one of the points of `do_fork` where
interrupts are on, or past `do_exit`. A `Step` is what the current task does up to the next such
point, or the timer calling `schedule`. A `Run` starts at `task_init` and records its events, the
latest first.

`Inv` is what every step keeps (`Run.inv`); it holds of the tasks in list order. The pid map, the
counter and the list are tied together by `Numbers` and the count of tasks inside `do_fork` bounds
how far the counter can get past the limit it is tested against.
-/

namespace Hurlex.Task

open Lib

/-- Where a task is in its own code. -/
inductive Pc where
  | user
  /-- in `do_fork`, past the test of `nr_task` -/
  | forkChecked
  /-- with a `task_struct` for the child -/
  | forkAlloc (task : Addr)
  /-- with the child on the list, about to wake it up -/
  | forkListed (task : Addr)
  /-- past `do_exit` -/
  | exited
  deriving DecidableEq

structure Sys extends Kernel where
  pc : Addr → Pc
  /-- the pages `alloc_task_struct` was given -/
  taken : Addr → Bool

def Sys.goto (s : Sys) (p : Pc) : Sys := { s with pc := Function.update s.pc s.current p }

inductive Ev where
  | refused
  | check
  | alloc (task : Addr)
  | commit (task : Addr)
  | wake (task : Addr)
  | exit (errno : Int)
  | tick
  deriving DecidableEq

/-- What happens next. -/
inductive Step : Sys → Ev → Sys → Prop where
  | refused {s : Sys} : s.pc s.current = .user → maxTask ≤ s.nrTask → Step s .refused s
  | check {s : Sys} : s.pc s.current = .user → s.nrTask < maxTask →
      Step s .check (s.goto .forkChecked)
  | alloc {s : Sys} {t : Addr} : s.pc s.current = .forkChecked → s.taken t = false →
      Step s (.alloc t) { s.goto (.forkAlloc t) with
        toKernel := s.toKernel.allocTaskStruct t, taken := Function.update s.taken t true }
  | commit {s : Sys} {t : Addr} : s.pc s.current = .forkAlloc t →
      Step s (.commit t) { s.goto (.forkListed t) with toKernel := s.toKernel.forkCommit t }
  | wake {s : Sys} {t : Addr} : s.pc s.current = .forkListed t →
      Step s (.wake t) { s.goto .user with toKernel := s.toKernel.wakeupTask t }
  | exit {s : Sys} {errno : Int} : s.pc s.current = .user → s.current ≠ s.glbIdleTask →
      Step s (.exit errno) { s.goto .exited with toKernel := s.toKernel.exitCommit errno }
  | tick {s : Sys} {k' : Kernel} : Dispatches s.toKernel k' →
      Step s .tick { s with toKernel := k' }

/-- After `task_init`, from a counter and a pid map that are zero. -/
def start (k : Kernel) (idleTask : Addr) : Sys where
  toKernel := { k with nrTask := 0, glbPidMap := fun _ => 0 }.taskInit idleTask
  pc _ := .user
  taken t := decide (t = idleTask)

inductive Run : List Ev → Sys → Prop where
  | start (k : Kernel) (idleTask : Addr) : Run [] (start k idleTask)
  | step {es : List Ev} {s s' : Sys} {e : Ev} : Run es s → Step s e s' → Run (e :: es) s'

/-- A kernel before `task_init`. -/
def bare : Kernel where
  links := ⟨id, id⟩
  task _ := TaskStruct.zero
  nrTask := 0
  glbPidMap _ := 0
  glbIdleTask := 0
  current := 0

/-! ## The invariant -/

/-- Not yet a ZOMBIE. -/
def Kernel.live (k : Kernel) (t : Addr) : Bool := decide ((k.task t).state ≠ .zombie)

/-- Inside `do_fork`, past its test and not yet counted. -/
def Pc.pending : Pc → Bool
  | .forkChecked | .forkAlloc _ => true
  | _ => false

def Sys.pending (s : Sys) (t : Addr) : Bool := (s.pc t).pending

/-- The numbers of the live tasks. -/
def Kernel.livePids (k : Kernel) (tasks : List Addr) : List Int :=
  (tasks.filter k.live).map fun t => (k.task t).pid

/-- The map says of each number whether it is in use, and each is in use once. -/
structure Numbers (m : PidMap) (ps : List Int) : Prop where
  nodup : ps.Nodup
  bit : ∀ p < maxPid, pidBit m p = true ↔ (p : Int) ∈ ps
  range : ∀ x ∈ ps, ∃ p < maxPid, x = (p : Nat)

/-- What holds of the tasks in list order. -/
structure Core (s : Sys) (tasks : List Addr) : Prop where
  list : TaskList s.toKernel tasks
  current : s.current ∈ tasks
  taken : ∀ t ∈ tasks, s.taken t = true
  busy : ∀ a, s.pc a ≠ .user → a ∈ tasks
  exited : ∀ a ∈ tasks, s.pc a = .exited ↔ (s.task a).state = .zombie
  child : ∀ a t, s.pc a = .forkAlloc t → s.taken t = true ∧ t ∉ tasks ∧
    (s.task t).state = .uninit
  child_inj : ∀ a b t, s.pc a = .forkAlloc t → s.pc b = .forkAlloc t → a = b
  listed : ∀ a t, s.pc a = .forkListed t → t ∈ tasks
  numbers : Numbers s.glbPidMap (s.livePids tasks)
  nr : s.nrTask = (s.livePids tasks).length

/-- The tasks on their way to the counter are counted in: however far it gets, there will be a
number for each of them. -/
structure Inv (s : Sys) (tasks : List Addr) : Prop extends Core s tasks where
  room : (s.livePids tasks).length + tasks.countP s.pending + 2 ≤ maxPid

/-! ## Numbers -/

section Numbers

variable {m : PidMap} {ps qs : List Int} {x : Int}

/-- With fewer numbers in use than there are, one is left. -/
theorem Numbers.free (h : Numbers m ps) (hlt : ps.length < maxPid) :
    ∃ p < maxPid, pidBit m p = false := by
  by_contra hfull
  have hall : ∀ p < maxPid, (p : Int) ∈ ps := fun p hp =>
    (h.bit p hp).1 (by
      by_contra hb
      exact hfull ⟨p, hp, eq_false_of_ne_true hb⟩)
  have hsub : Finset.range maxPid ⊆ (ps.map Int.toNat).toFinset := by
    intro p hp
    rw [List.mem_toFinset, List.mem_map]
    exact ⟨p, hall p (Finset.mem_range.1 hp), Int.toNat_natCast p⟩
  have hcard := (Finset.card_le_card hsub).trans (List.toFinset_card_le _)
  rw [Finset.card_range, List.length_map] at hcard
  omega

/-- Taking the smallest number left. -/
theorem Numbers.alloc (h : Numbers m ps) (hlt : ps.length < maxPid) :
    ∃ p < maxPid, ((p : Int) ∉ ps ∧ ∀ q < p, (q : Int) ∈ ps) ∧ (allocPid m).2 = p ∧
      Numbers (allocPid m).1 ((p : Int) :: ps) := by
  obtain ⟨p, hp, hf, hmin, h2, hbit⟩ := allocPid_spec (h.free hlt)
  have hnew : (p : Int) ∉ ps := fun hc => by
    rw [(h.bit p hp).2 hc] at hf
    exact Bool.noConfusion hf
  refine ⟨p, hp, ⟨hnew, fun q hq => (h.bit q (by omega)).1 (hmin q hq)⟩, h2,
    List.nodup_cons.2 ⟨hnew, h.nodup⟩, fun q hq => ?_, fun y hy => ?_⟩
  · rw [hbit, Bool.or_eq_true, decide_eq_true_iff, h.bit q hq, List.mem_cons, Int.natCast_inj]
  · rcases List.mem_cons.1 hy with rfl | hy
    · exact ⟨p, hp, rfl⟩
    · exact h.range y hy

/-- Giving one back. -/
theorem Numbers.free_pid (h : Numbers m (ps ++ x :: qs)) : Numbers (freePid m x) (ps ++ qs) := by
  obtain ⟨p, hp, rfl⟩ := h.range x (by simp)
  have hnd : (p : Int) ∉ ps ++ qs ∧ (ps ++ qs).Nodup :=
    List.nodup_cons.1 (List.nodup_middle.1 h.nodup)
  refine ⟨hnd.2, fun q hq => ?_, fun y hy => h.range y ?_⟩
  · rw [pidBit_freePid m hp, Bool.and_eq_true, h.bit q hq]
    constructor
    · rintro ⟨hne, hmem⟩
      have hqp : q ≠ p := by simpa using hne
      simp only [List.mem_append, List.mem_cons, Int.natCast_inj] at hmem ⊢
      tauto
    · intro hmem
      have hqp : q ≠ p := by
        rintro rfl
        exact hnd.1 hmem
      simp only [List.mem_append, List.mem_cons] at hmem ⊢
      exact ⟨by simpa using hqp, by tauto⟩
  · simp only [List.mem_append, List.mem_cons] at hy ⊢
    tauto

end Numbers

/-! ## Frames -/

section Frames

variable {s : Sys} {k k' : Kernel} {tasks : List Addr} {t a : Addr} {p : Pc}

@[simp] theorem goto_toKernel (s : Sys) (p : Pc) : (s.goto p).toKernel = s.toKernel := rfl

theorem goto_pc_self (s : Sys) (p : Pc) : (s.goto p).pc s.current = p := Function.update_self ..

theorem goto_pc_of_ne (s : Sys) (p : Pc) (h : a ≠ s.current) : (s.goto p).pc a = s.pc a :=
  Function.update_of_ne h ..

/-- A position other than the new one was there before. -/
theorem goto_pc_eq {q : Pc} (h : (s.goto p).pc a = q) (hq : p ≠ q) :
    a ≠ s.current ∧ s.pc a = q := by
  by_cases ha : a = s.current
  · subst ha
    rw [goto_pc_self] at h
    exact absurd h hq
  · exact ⟨ha, (goto_pc_of_ne s p ha).symm.trans h⟩

theorem livePids_congr (h : ∀ t ∈ tasks, k'.live t = k.live t ∧ (k'.task t).pid = (k.task t).pid) :
    k'.livePids tasks = k.livePids tasks := by
  unfold Kernel.livePids
  rw [List.filter_congr fun t ht => (h t ht).1]
  exact List.map_congr_left fun t ht => (h t (List.mem_filter.1 ht).1).2

theorem livePids_append (k : Kernel) (xs ys : List Addr) :
    k.livePids (xs ++ ys) = k.livePids xs ++ k.livePids ys := by
  unfold Kernel.livePids
  rw [List.filter_append, List.map_append]

theorem livePids_cons_live (h : k.live t = true) (xs : List Addr) :
    k.livePids (t :: xs) = (k.task t).pid :: k.livePids xs := by
  unfold Kernel.livePids
  rw [List.filter_cons_of_pos h, List.map_cons]

theorem livePids_cons_dead (h : k.live t = false) (xs : List Addr) :
    k.livePids (t :: xs) = k.livePids xs := by
  unfold Kernel.livePids
  rw [List.filter_cons_of_neg (by simp [h])]

theorem length_livePids (k : Kernel) (tasks : List Addr) :
    (k.livePids tasks).length = tasks.countP k.live := by
  rw [Kernel.livePids, List.length_map, List.countP_eq_length_filter]

/-- A task list survives what changes neither links nor idle's state. -/
theorem TaskList.frame (h : TaskList k tasks) (hl : k'.links = k.links)
    (hi : k'.glbIdleTask = k.glbIdleTask)
    (hs : (k'.task k.glbIdleTask).state = (k.task k.glbIdleTask).state) : TaskList k' tasks where
  ring := hl ▸ h.ring
  idle_last := hi ▸ h.idle_last
  idle_runnable := by rw [hi, hs, h.idle_runnable]

/-- A new task at the head of the list. -/
theorem TaskList.add_ring (h : TaskList k tasks) (ht : t ∉ tasks) :
    LinkRing (listAdd k.links (.entry t) taskList) taskList ((t :: tasks).map .entry) := by
  refine listAdd_ring h.ring ?_
  rw [List.mem_cons, not_or]
  refine ⟨nofun, fun hm => ?_⟩
  obtain ⟨u, hu, he⟩ := List.mem_map.1 hm
  exact ht (Node.entry.inj he ▸ hu)

/-- A count changes with the one element that changes. -/
theorem countP_change {α : Type*} {xs : List α} {a : α} {p q : α → Bool} (hn : xs.Nodup)
    (ha : a ∈ xs) (h : ∀ x, x ≠ a → q x = p x) :
    xs.countP q + (p a).toNat = xs.countP p + (q a).toNat := by
  obtain ⟨l, r, rfl⟩ := List.append_of_mem ha
  have hnd := List.nodup_cons.1 (List.nodup_middle.1 hn)
  have off : ∀ ys : List α, a ∉ ys → ys.countP q = ys.countP p := fun ys hy =>
    List.countP_congr fun x hx => by rw [h x (ne_of_mem_of_not_mem hx hy)]
  rw [List.countP_append, List.countP_append, List.countP_cons, List.countP_cons,
    off l fun hl => hnd.1 (List.mem_append_left _ hl),
    off r fun hr => hnd.1 (List.mem_append_right _ hr)]
  cases p a <;> cases q a <;> simp <;> omega

theorem Core.countP_goto (h : Core s tasks) (p : Pc) :
    tasks.countP (s.goto p).pending + (s.pc s.current).pending.toNat =
      tasks.countP s.pending + p.pending.toNat := by
  have := countP_change (p := s.pending) (q := (s.goto p).pending) h.list.nodup h.current
    fun x hx => by rw [Sys.pending, goto_pc_of_ne s p hx, Sys.pending]
  rw [Sys.pending, Sys.pending, goto_pc_self] at this
  exact this

end Frames

/-! ## The steps of a task -/

section Steps

variable {s : Sys} {tasks : List Addr} {t : Addr} {p : Pc}

/-- Tasks inside `do_fork` are live. -/
theorem Core.pending_le (h : Core s tasks) :
    tasks.countP s.pending ≤ (s.livePids tasks).length := by
  rw [length_livePids]
  refine List.countP_mono_left fun a ha hp => ?_
  refine decide_eq_true fun hz => ?_
  rw [Sys.pending, (h.exited a ha).2 hz] at hp
  exact Bool.noConfusion hp

/-- The current task moves on inside `do_fork`. -/
theorem Core.goto (h : Core s tasks) (hq : s.pc s.current ≠ .exited) (hp : p ≠ .exited)
    (hc : ∀ t, p = .forkAlloc t → (s.taken t = true ∧ t ∉ tasks ∧ (s.task t).state = .uninit) ∧
      ∀ a, s.pc a ≠ .forkAlloc t)
    (hl : ∀ t, p = .forkListed t → t ∈ tasks) : Core (s.goto p) tasks where
  list := h.list
  current := h.current
  taken := h.taken
  busy a ha := by
    by_cases hca : a = s.current
    · exact hca ▸ h.current
    · exact h.busy a (goto_pc_of_ne s p hca ▸ ha)
  exited a ha := by
    by_cases hca : a = s.current
    · subst hca
      rw [goto_pc_self]
      exact iff_of_false hp ((h.exited _ ha).not.1 hq)
    · rw [goto_pc_of_ne s p hca]
      exact h.exited a ha
  child a t ha := by
    by_cases hpt : p = .forkAlloc t
    · exact (hc t hpt).1
    · exact h.child a t (goto_pc_eq ha hpt).2
  child_inj a b t ha hb := by
    by_cases hpt : p = .forkAlloc t
    · have only {x : Addr} (hx : (s.goto p).pc x = .forkAlloc t) : x = s.current := by
        by_contra hne
        exact (hc t hpt).2 x ((goto_pc_of_ne s p hne).symm.trans hx)
      rw [only ha, only hb]
    · exact h.child_inj a b t (goto_pc_eq ha hpt).2 (goto_pc_eq hb hpt).2
  listed a t ha := by
    by_cases hpt : p = .forkListed t
    · exact hl t hpt
    · exact h.listed a t (goto_pc_eq ha hpt).2
  numbers := h.numbers
  nr := h.nr

theorem Inv.check (h : Inv s tasks) (hpc : s.pc s.current = .user) (hlt : s.nrTask < maxTask) :
    Inv (s.goto .forkChecked) tasks := by
  have hcore : Core (s.goto .forkChecked) tasks :=
    h.goto (by rw [hpc]; exact Pc.noConfusion) Pc.noConfusion (fun _ => Pc.noConfusion)
      fun _ => Pc.noConfusion
  refine ⟨hcore, ?_⟩
  have hm : maxPid = 8192 := rfl
  have hmt : maxTask = 4096 := rfl
  have hle := hcore.pending_le
  have hnr := h.nr
  rw [goto_toKernel] at hle ⊢
  omega

/-- What other tasks may do to the kernel. -/
theorem Core.frame (h : Core s tasks) {k' : Kernel} {taken' : Addr → Bool}
    (hl : k'.links = s.links) (hi : k'.glbIdleTask = s.glbIdleTask) (hn : k'.nrTask = s.nrTask)
    (hm : k'.glbPidMap = s.glbPidMap) (hc : k'.current ∈ tasks)
    (ht : ∀ a, s.taken a = true → taken' a = true)
    (hs : ∀ a ∈ tasks, ((k'.task a).state = .zombie ↔ (s.task a).state = .zombie) ∧
      (k'.task a).pid = (s.task a).pid)
    (hidle : (k'.task s.glbIdleTask).state = .runnable)
    (hchild : ∀ a t, s.pc a = .forkAlloc t → (k'.task t).state = .uninit) :
    Core ⟨k', s.pc, taken'⟩ tasks := by
  have pids : k'.livePids tasks = s.livePids tasks :=
    livePids_congr fun a ha => ⟨decide_eq_decide.2 (hs a ha).1.not, (hs a ha).2⟩
  exact {
    list := h.list.frame hl hi (hidle.trans h.list.idle_runnable.symm)
    current := hc
    taken := fun a ha => ht a (h.taken a ha)
    busy := h.busy
    exited := fun a ha => (h.exited a ha).trans (hs a ha).1.symm
    child := fun a t ha => ⟨ht t (h.child a t ha).1, (h.child a t ha).2.1, hchild a t ha⟩
    child_inj := h.child_inj
    listed := h.listed
    numbers := by
      show Numbers k'.glbPidMap (k'.livePids tasks)
      rw [pids, hm]
      exact h.numbers
    nr := by
      show k'.nrTask = (k'.livePids tasks).length
      rw [pids, hn]
      exact h.nr }

/-- A page of its own for a child. -/
theorem Inv.alloc (h : Inv s tasks) (hpc : s.pc s.current = .forkChecked) (ht : s.taken t = false) :
    Inv { s.goto (.forkAlloc t) with
      toKernel := s.toKernel.allocTaskStruct t, taken := Function.update s.taken t true } tasks := by
  have fresh {a : Addr} (ha : s.taken a = true) : a ≠ t := by
    rintro rfl
    rw [ha] at ht
    exact Bool.noConfusion ht
  have same {a : Addr} (ha : s.taken a = true) : (s.allocTaskStruct t).task a = s.task a :=
    Kernel.setTask_of_ne _ (fresh ha)
  have hcore : Core ⟨s.toKernel.allocTaskStruct t, s.pc, Function.update s.taken t true⟩ tasks :=
    h.frame rfl rfl rfl rfl h.current
      (fun a ha => (Function.update_of_ne (fresh ha) ..).trans ha)
      (fun a ha => by rw [same (h.taken a ha)]; exact ⟨Iff.rfl, rfl⟩)
      (by rw [same (h.taken _ h.list.idle_mem)]; exact h.list.idle_runnable)
      (fun a u ha => by rw [same (h.child a u ha).1]; exact (h.child a u ha).2.2)
  have hgoto := hcore.goto (p := .forkAlloc t)
    (show s.pc s.current ≠ .exited by rw [hpc]; exact Pc.noConfusion) Pc.noConfusion
    (fun u hu => by
      obtain rfl : t = u := Pc.forkAlloc.inj hu
      refine ⟨⟨Function.update_self .., fun hm => fresh (h.taken t hm) rfl, ?_⟩, fun a ha => ?_⟩
      · exact congrArg TaskStruct.state (Kernel.setTask_self ..)
      · exact fresh (h.child a t ha).1 rfl)
    fun _ => Pc.noConfusion
  refine ⟨hgoto, ?_⟩
  have hcount := h.countP_goto (.forkAlloc t)
  rw [hpc] at hcount
  have pids : (s.allocTaskStruct t).livePids tasks = s.livePids tasks :=
    livePids_congr fun a ha => by
      rw [Kernel.live, Kernel.live, same (h.taken a ha)]
      exact ⟨rfl, rfl⟩
  have hroom := h.room
  show ((s.allocTaskStruct t).livePids tasks).length +
    tasks.countP (s.goto (.forkAlloc t)).pending + 2 ≤ maxPid
  rw [pids]
  simp only [Pc.pending, Bool.toNat_true] at hcount
  omega

/-- The child goes on the list. -/
theorem Core.commit (h : Core s tasks) (ht : s.taken t = true) (hmem : t ∉ tasks)
    (hst : (s.task t).state = .uninit) (hno : ∀ a, s.pc a ≠ .forkAlloc t)
    (hlt : (s.livePids tasks).length < maxPid) :
    Core { s with toKernel := s.toKernel.forkCommit t } (t :: tasks) := by
  obtain ⟨p, -, -, hp, hnum⟩ := h.numbers.alloc hlt
  have other {a : Addr} (ha : a ≠ t) : (s.forkCommit t).task a = s.task a := Kernel.setTask_of_ne _ ha
  have self : (s.forkCommit t).task t = { s.task t with pid := (allocPid s.glbPidMap).2 } :=
    Kernel.setTask_self ..
  have ne {a : Addr} (ha : a ∈ tasks) : a ≠ t := ne_of_mem_of_not_mem ha hmem
  have pids : (s.forkCommit t).livePids (t :: tasks) = (p : Int) :: s.livePids tasks := by
    rw [livePids_cons_live (decide_eq_true (by rw [self, hst]; exact TaskState.noConfusion)), self, hp]
    refine congrArg _ (livePids_congr fun a ha => ?_)
    rw [Kernel.live, Kernel.live, other (ne ha)]
    exact ⟨rfl, rfl⟩
  exact {
    list := {
      ring := h.list.add_ring hmem
      idle_last := by
        have hlast := h.list.idle_last
        rw [List.getLast?_cons_of_ne_nil (List.ne_nil_of_mem h.current)]
        exact hlast
      idle_runnable := by
        show ((s.forkCommit t).task s.glbIdleTask).state = .runnable
        rw [other (ne h.list.idle_mem)]
        exact h.list.idle_runnable }
    current := List.mem_cons_of_mem _ h.current
    taken := fun a ha => (List.mem_cons.1 ha).elim (fun e => e ▸ ht) (h.taken a)
    busy := fun a ha => List.mem_cons_of_mem _ (h.busy a ha)
    exited := fun a ha => by
      show s.pc a = .exited ↔ ((s.forkCommit t).task a).state = .zombie
      by_cases hat : a = t
      · subst hat
        have huser : s.pc a = .user := not_not.1 fun hne => hmem (h.busy a hne)
        rw [self, huser, hst]
        exact ⟨fun e => Pc.noConfusion e, fun e => TaskState.noConfusion e⟩
      · rw [other hat]
        exact h.exited a ((List.mem_cons.1 ha).resolve_left hat)
    child := fun a u ha => by
      have hut : u ≠ t := fun e => hno a (e ▸ ha)
      obtain ⟨h1, h2, h3⟩ := h.child a u ha
      refine ⟨h1, fun hm => (List.mem_cons.1 hm).elim hut h2, ?_⟩
      show ((s.forkCommit t).task u).state = .uninit
      rw [other hut, h3]
    child_inj := h.child_inj
    listed := fun a u ha => List.mem_cons_of_mem _ (h.listed a u ha)
    numbers := by
      show Numbers (s.forkCommit t).glbPidMap ((s.forkCommit t).livePids (t :: tasks))
      rw [pids]
      exact hnum
    nr := by
      show s.nrTask + 1 = ((s.forkCommit t).livePids (t :: tasks)).length
      rw [pids, h.nr, List.length_cons]
      rfl }

theorem Inv.commit (h : Inv s tasks) (hpc : s.pc s.current = .forkAlloc t) :
    Inv { s.goto (.forkListed t) with toKernel := s.toKernel.forkCommit t } (t :: tasks) := by
  obtain ⟨htaken, hmem, hst⟩ := h.child _ _ hpc
  have hcount := h.countP_goto (.forkListed t)
  rw [hpc] at hcount
  simp only [Pc.pending, Bool.toNat_true, Bool.toNat_false] at hcount
  have hroom := h.room
  have hm : maxPid = 8192 := rfl
  have hout := h.toCore.goto (p := .user) (by rw [hpc]; exact Pc.noConfusion) Pc.noConfusion
    (fun _ => Pc.noConfusion) fun _ => Pc.noConfusion
  -- no other task is about to list this child
  have hno (a : Addr) : (s.goto .user).pc a ≠ .forkAlloc t := fun ha =>
    have hat := goto_pc_eq ha Pc.noConfusion
    hat.1 (h.child_inj a s.current t hat.2 hpc)
  have hlisted := (hout.commit htaken hmem hst hno
    (show (s.livePids tasks).length < maxPid by omega)).goto (p := .forkListed t)
    (show (s.goto .user).pc s.current ≠ .exited by rw [goto_pc_self]; exact Pc.noConfusion)
    Pc.noConfusion (fun _ => Pc.noConfusion)
    fun u hu => Pc.forkListed.inj hu ▸ List.mem_cons_self
  have hpcs : Function.update (s.goto .user).pc s.current (.forkListed t) =
      (s.goto (.forkListed t)).pc := Function.update_idem ..
  have hcore : Core { s.goto (.forkListed t) with toKernel := s.toKernel.forkCommit t }
      (t :: tasks) := by
    have : Core ⟨s.toKernel.forkCommit t,
        Function.update (s.goto .user).pc s.current (.forkListed t), s.taken⟩ (t :: tasks) := hlisted
    rw [hpcs] at this
    exact this
  refine ⟨hcore, ?_⟩
  have hlen : (((s.forkCommit t).livePids (t :: tasks)).length : Int) =
      (s.livePids tasks).length + 1 := by
    rw [← h.nr]
    exact hcore.nr.symm
  have hchild : (s.goto (.forkListed t)).pending t = false := by
    have huser : s.pc t = .user := not_not.1 fun hne => hmem (h.busy t hne)
    rw [Sys.pending, goto_pc_of_ne s _ (ne_of_mem_of_not_mem h.current hmem).symm, huser]
    rfl
  show ((s.forkCommit t).livePids (t :: tasks)).length +
    (t :: tasks).countP (s.goto (.forkListed t)).pending + 2 ≤ maxPid
  rw [List.countP_cons_of_neg (by rw [hchild]; exact Bool.noConfusion)]
  omega

/-- Waking a task up changes neither its number nor whether it is a ZOMBIE. -/
theorem wakeupTask_same (k : Kernel) (t a : Addr) :
    (((k.wakeupTask t).task a).state = .zombie ↔ (k.task a).state = .zombie) ∧
      ((k.wakeupTask t).task a).pid = (k.task a).pid := by
  unfold Kernel.wakeupTask
  split
  · next hne =>
    refine ⟨?_, k.setTask_field TaskStruct.pid (by rfl) a⟩
    by_cases hat : a = t
    · subst hat
      rw [Kernel.setTask_self]
      exact iff_of_false TaskState.noConfusion hne
    · rw [Kernel.setTask_of_ne _ hat]
  · exact ⟨Iff.rfl, rfl⟩

/-- The child is woken up. -/
theorem Inv.wake (h : Inv s tasks) (hpc : s.pc s.current = .forkListed t) :
    Inv { s.goto .user with toKernel := s.toKernel.wakeupTask t } tasks := by
  have htmem := h.listed _ _ hpc
  have hout := h.toCore.goto (p := .user) (by rw [hpc]; exact Pc.noConfusion) Pc.noConfusion
    (fun _ => Pc.noConfusion) fun _ => Pc.noConfusion
  have hidle : ((s.wakeupTask t).task s.glbIdleTask).state = .runnable := by
    by_cases hi : s.glbIdleTask = t
    · subst hi
      unfold Kernel.wakeupTask
      rw [if_pos (by rw [h.list.idle_runnable]; exact TaskState.noConfusion), Kernel.setTask_self]
    · rw [Kernel.wakeupTask_of_ne hi]
      exact h.list.idle_runnable
  have hcore : Core ⟨s.toKernel.wakeupTask t, (s.goto .user).pc, s.taken⟩ tasks :=
    hout.frame (s.wakeupTask_links t) (s.wakeupTask_glbIdleTask t) (s.wakeupTask_nrTask t)
      (s.wakeupTask_glbPidMap t) (by rw [s.wakeupTask_current]; exact h.current)
      (fun _ ha => ha) (fun a _ => wakeupTask_same s.toKernel t a) hidle
      (fun a u ha => by
        obtain ⟨-, humem, hust⟩ := hout.child a u ha
        rw [Kernel.wakeupTask_of_ne (ne_of_mem_of_not_mem htmem humem).symm]
        exact hust)
  refine ⟨hcore, ?_⟩
  have hcount := h.countP_goto .user
  rw [hpc] at hcount
  have pids : (s.wakeupTask t).livePids tasks = s.livePids tasks :=
    livePids_congr fun a _ =>
      ⟨decide_eq_decide.2 (wakeupTask_same s.toKernel t a).1.not, (wakeupTask_same _ t a).2⟩
  have hroom := h.room
  show ((s.wakeupTask t).livePids tasks).length + tasks.countP (s.goto .user).pending + 2 ≤ maxPid
  rw [pids]
  simp only [Pc.pending, Bool.toNat_false, Nat.add_zero] at hcount
  rw [hcount]
  exact hroom

theorem exitCommit_of_ne {errno : Int} {a : Addr} (ha : a ≠ s.current) :
    (s.exitCommit errno).task a = s.task a :=
  Kernel.setTask_of_ne _ ha

/-- The number of the current task is no longer in use, all others are. -/
theorem Core.livePids_exit (h : Core s tasks) (hpc : s.pc s.current = .user) (errno : Int) :
    ∃ ps qs, s.livePids tasks = ps ++ (s.task s.current).pid :: qs ∧
      (s.exitCommit errno).livePids tasks = ps ++ qs := by
  have hlive : s.live s.current = true := decide_eq_true fun hz => by
    have := (h.exited _ h.current).2 hz
    rw [hpc] at this
    exact Pc.noConfusion this
  have hdead : (s.exitCommit errno).live s.current = false := by
    have self : (s.exitCommit errno).task s.current = { s.task s.current with
        state := .zombie, exitCode := errno, needResched := true } := Kernel.setTask_self ..
    rw [Kernel.live, self]
    rfl
  obtain ⟨pre, post, rfl⟩ := List.append_of_mem h.current
  have hnd := List.nodup_cons.1 (List.nodup_middle.1 h.list.nodup)
  have keeps {xs : List Addr} (hx : s.current ∉ xs) :
      (s.exitCommit errno).livePids xs = s.livePids xs :=
    livePids_congr fun a ha => by
      rw [Kernel.live, Kernel.live, exitCommit_of_ne (ne_of_mem_of_not_mem ha hx)]
      exact ⟨rfl, rfl⟩
  refine ⟨s.livePids pre, s.livePids post, ?_, ?_⟩
  · rw [livePids_append, livePids_cons_live hlive]
  · rw [livePids_append, livePids_cons_dead hdead,
      keeps fun hx => hnd.1 (List.mem_append_left _ hx),
      keeps fun hx => hnd.1 (List.mem_append_right _ hx)]

theorem Core.exit (h : Core s tasks) (hpc : s.pc s.current = .user)
    (hidle : s.current ≠ s.glbIdleTask) (errno : Int) :
    Core { s.goto .exited with toKernel := s.toKernel.exitCommit errno } tasks := by
  obtain ⟨ps, qs, before, pids⟩ := h.livePids_exit hpc errno
  exact {
    list := h.list.frame rfl rfl (by rw [exitCommit_of_ne hidle.symm])
    current := h.current
    taken := h.taken
    busy := fun a ha => by
      by_cases hca : a = s.current
      · exact hca ▸ h.current
      · exact h.busy a (goto_pc_of_ne s .exited hca ▸ ha)
    exited := fun a ha => by
      show (s.goto .exited).pc a = .exited ↔ ((s.exitCommit errno).task a).state = .zombie
      by_cases hca : a = s.current
      · subst hca
        rw [goto_pc_self]
        exact ⟨fun _ => congrArg TaskStruct.state (Kernel.setTask_self ..), fun _ => rfl⟩
      · rw [goto_pc_of_ne s _ hca, exitCommit_of_ne hca]
        exact h.exited a ha
    child := fun a u ha => by
      obtain ⟨h1, h2, h3⟩ := h.child a u (goto_pc_eq ha Pc.noConfusion).2
      refine ⟨h1, h2, ?_⟩
      show ((s.exitCommit errno).task u).state = .uninit
      rw [exitCommit_of_ne (ne_of_mem_of_not_mem h.current h2).symm, h3]
    child_inj := fun a b u ha hb => h.child_inj a b u (goto_pc_eq ha Pc.noConfusion).2
      (goto_pc_eq hb Pc.noConfusion).2
    listed := fun a u ha => h.listed a u (goto_pc_eq ha Pc.noConfusion).2
    numbers := by
      show Numbers (freePid s.glbPidMap (s.task s.current).pid) ((s.exitCommit errno).livePids tasks)
      rw [pids]
      exact (before ▸ h.numbers).free_pid
    nr := by
      show s.nrTask - 1 = ((s.exitCommit errno).livePids tasks).length
      rw [pids, h.nr, before]
      simp only [List.length_append, List.length_cons]
      omega }

/-- The current task becomes a ZOMBIE and gives its number back. -/
theorem Inv.exit (h : Inv s tasks) (hpc : s.pc s.current = .user)
    (hidle : s.current ≠ s.glbIdleTask) (errno : Int) :
    Inv { s.goto .exited with toKernel := s.toKernel.exitCommit errno } tasks := by
  refine ⟨h.toCore.exit hpc hidle errno, ?_⟩
  obtain ⟨ps, qs, before, pids⟩ := h.livePids_exit hpc errno
  have hcount := h.countP_goto .exited
  rw [hpc] at hcount
  simp only [Pc.pending, Bool.toNat_false, Nat.add_zero] at hcount
  have hroom := h.room
  show ((s.exitCommit errno).livePids tasks).length + tasks.countP (s.goto .exited).pending + 2 ≤
    maxPid
  rw [hcount, pids]
  rw [before] at hroom
  simp only [List.length_append, List.length_cons] at hroom ⊢
  omega

end Steps

/-! ## The timer -/

section Tick

variable {s : Sys} {tasks : List Addr} {k : Kernel} {t a : Addr}

theorem dispatched_state (k : Kernel) (t a : Addr) :
    ((k.dispatched t).task a).state = (k.task a).state :=
  (k.cleared.setTask_field TaskStruct.state (by rfl) a).trans (cleared_state k a)

theorem dispatched_runnable (k : Kernel) (t : Addr) : (k.dispatched t).runnable = k.runnable := by
  funext a
  rw [Kernel.runnable, dispatched_state, Kernel.runnable]

theorem dispatched_pid (k : Kernel) (t a : Addr) :
    ((k.dispatched t).task a).pid = (k.task a).pid :=
  (k.cleared.setTask_field TaskStruct.pid (by rfl) a).trans (k.setTask_field TaskStruct.pid (by rfl) a)

theorem Inv.tick (h : Inv s tasks) {k' : Kernel} (hd : Dispatches s.toKernel k') :
    Inv { s with toKernel := k' } tasks := by
  obtain ⟨t, ht, hiff⟩ := h.list.dispatches_iff h.current
  obtain rfl := (hiff k').1 hd
  have pids : (s.dispatched t).livePids tasks = s.livePids tasks :=
    livePids_congr fun a _ => by
      rw [Kernel.live, Kernel.live, dispatched_state]
      exact ⟨rfl, dispatched_pid _ t a⟩
  refine ⟨h.toCore.frame rfl rfl rfl rfl (nextRound_mem ht) (fun _ ha => ha)
    (fun a _ => ⟨by rw [dispatched_state], dispatched_pid _ t a⟩)
    (by rw [dispatched_state]; exact h.list.idle_runnable)
    (fun a u ha => by rw [dispatched_state]; exact (h.child a u ha).2.2), ?_⟩
  show ((s.dispatched t).livePids tasks).length + tasks.countP s.pending + 2 ≤ maxPid
  rw [pids]
  exact h.room

end Tick

/-! ## Whole runs -/

theorem numbers_zero : Numbers (fun _ => 0) [] where
  nodup := List.nodup_nil
  bit p _ := iff_of_false (by simp [pidBit]) List.not_mem_nil
  range _ h := absurd h List.not_mem_nil

theorem start_idle (k : Kernel) (idleTask : Addr) : (start k idleTask).task idleTask =
    { TaskStruct.zero with state := .runnable, pid := (allocPid fun _ => 0).2, needResched := true } :=
  Kernel.setTask_self ..

theorem start_inv (k : Kernel) (idleTask : Addr) : Inv (start k idleTask) [idleTask] := by
  obtain ⟨p, -, -, hp, hnum⟩ := numbers_zero.alloc (show 0 < 8192 by decide)
  have pids : (start k idleTask).livePids [idleTask] = [(p : Int)] := by
    rw [livePids_cons_live (decide_eq_true (by rw [start_idle]; exact TaskState.noConfusion)),
      start_idle, hp]
    rfl
  refine ⟨?_, ?_⟩
  · exact {
      list := {
        ring := listAdd_ring (initListHead_ring k.links taskList) (by simp)
        idle_last := rfl
        idle_runnable := by
          show ((start k idleTask).task idleTask).state = .runnable
          rw [start_idle] }
      current := List.mem_singleton_self _
      taken := fun t ht => decide_eq_true (List.mem_singleton.1 ht)
      busy := fun a ha => absurd rfl ha
      exited := fun a ha => by
        obtain rfl := List.mem_singleton.1 ha
        rw [start_idle]
        exact iff_of_false Pc.noConfusion TaskState.noConfusion
      child := fun a t ha => Pc.noConfusion ha
      child_inj := fun a b t ha => Pc.noConfusion ha
      listed := fun a t ha => Pc.noConfusion ha
      numbers := by
        rw [pids]
        simp only [start, Kernel.taskInit]
        exact hnum
      nr := by
        rw [pids]
        rfl }
  · rw [pids]
    show 1 + 0 + 2 ≤ 8192
    decide

/-- What an event does to the task list. -/
def Ev.list : Ev → List Addr → List Addr
  | .commit t, tasks => t :: tasks
  | _, tasks => tasks

theorem Inv.step {s s' : Sys} {e : Ev} {tasks : List Addr} (h : Inv s tasks) (hs : Step s e s') :
    Inv s' (e.list tasks) := by
  cases hs with
  | refused _ _ => exact h
  | check hpc hlt => exact h.check hpc hlt
  | alloc hpc ht => exact h.alloc hpc ht
  | commit hpc => exact h.commit hpc
  | wake hpc => exact h.wake hpc
  | exit hpc hidle => exact h.exit hpc hidle _
  | tick hd => exact h.tick hd

/-- **A run keeps the invariant**, for the tasks in the order of the list. -/
theorem Run.inv {es : List Ev} {s : Sys} (h : Run es s) : ∃ tasks, Inv s tasks := by
  induction h with
  | start k idleTask => exact ⟨_, start_inv k idleTask⟩
  | step _ hs ih =>
    obtain ⟨tasks, hi⟩ := ih
    exact ⟨_, hi.step hs⟩

end Hurlex.Task
