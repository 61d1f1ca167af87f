import Hurlex.Mm.FirstFitStates
import Hurlex.Task.Kthread
import Hurlex.Task.Progress

/-!
# `do_fork` as one call

`doForkIn` is `do_fork` with the page manager it takes the page from. A call that is not served must
leave no trace, and one that is adds one task (`AllOrNothing`).

The states it is called from are those of a `PagedRun`: tasks under preemption, the pages they take
with `alloc_task_struct`, and the rest of the kernel, which takes and gives back pages of its own.
The pages of tasks are never given back. `Owned` keeps the pages of the tasks and the free pages
apart (`PagedRun.owned`), so that a new `task_struct` is in a page of its own; a `PagedRun` is a run
of the tasks (`PagedRun.run`), and a call of `do_fork` is made of its steps
(`PagedRun.doFork_reaches`).

**`doFork_allOrNothing_iff`**: `alloc_task_struct` asserts that it got a page, so the test of its
result in `do_fork` is never reached without one. Below the limit on tasks and without a free page
the kernel halts.
-/

namespace Hurlex.Task

open Lib.Machine
open FirstFit (FfMm Client Shares firstFits ffAllocPages ffFreePages)
open Lib (LinkRing)

/-- Where a `task_struct` is that `alloc_pages` put at `addr`. -/
def taskWord (addr : Nat) : Word := BitVec.ofNat 32 addr + BitVec.ofNat 32 kernbase

section Call

variable (forkretAddr : Word)

/-- `do_fork`: the number of the child or an error. -/
def doForkIn (pmmAddrStart : Nat) (k : Kernel) (mm : FfMm) (m : Memory) (cloneFlags : Word)
    (r : PtRegs) : Kern (Int × Kernel × FfMm × Memory) :=
  if maxTask ≤ k.nrTask then .ok (-eNoFreeProc, k, mm, m)
  else do
    let (mm, addr) ← ffAllocPages pmmAddrStart mm 1
    kassert (addr ≠ 0) "alloc_task_struct error!"
    let task := taskWord addr
    let k := k.allocTaskStruct task.toNat
    let m := allocTaskStruct m task
    if task = 0 then return (-eNoMem, k, mm, m)
    else if copyMm cloneFlags task ≠ 0 then
      let mm ← ffFreePages pmmAddrStart mm (task - BitVec.ofNat 32 kernbase).toNat 1
      return (-eNoMem, k, mm, m)
    else
      let m := copyThread forkretAddr m task r
      let k := (k.forkCommit task.toNat).wakeupTask task.toNat
      return ((k.task task.toNat).pid, k, mm, m)

/-! ## All or nothing -/

/-- One more task: RUNNABLE, at the head of the list, with the number `ret`, in a page that was
free. -/
structure Forked (M : PhyMem) (k : Kernel) (mm : FfMm) (ret : Int) (k' : Kernel) (mm' : FfMm) :
    Prop where
  pid : 0 ≤ ret
  added : ∃ i t tasks, i ∈ mm.free ∧ mm'.free = mm.free \ {i} ∧ (taskWord (M.addr i)).toNat = t ∧
    LinkRing k.links taskList (tasks.map .entry) ∧ t ∉ tasks ∧
    LinkRing k'.links taskList ((t :: tasks).map .entry) ∧
    (k'.task t).state = .runnable ∧ (k'.task t).pid = ret ∧ ∀ a, a ≠ t → k'.task a = k.task a
  nrTask : k'.nrTask = k.nrTask + 1
  pidMap : ∃ p < maxPid, ret = (p : Nat) ∧ pidBit k.glbPidMap p = false ∧
    ∀ q, pidBit k'.glbPidMap q = (decide (q = p) || pidBit k.glbPidMap q)

/-- An error, and no trace. -/
structure Refused (k : Kernel) (mm : FfMm) (ret : Int) (k' : Kernel) (mm' : FfMm) : Prop where
  error : ret < 0
  links : k'.links = k.links
  nrTask : k'.nrTask = k.nrTask
  pidMap : k'.glbPidMap = k.glbPidMap
  free : mm'.free = mm.free

/-- `do_fork` returns, and has made one task or left no trace. -/
def AllOrNothing (M : PhyMem) (k : Kernel) (mm : FfMm) (m : Memory) (cloneFlags : Word)
    (r : PtRegs) : Prop :=
  ∃ ret k' mm' m', doForkIn forkretAddr M.start k mm m cloneFlags r = .ok (ret, k', mm', m') ∧
    (Forked M k mm ret k' mm' ∨ Refused k mm ret k' mm')

/-- Without a free page `do_fork` returns `-E_NO_MEM`. -/
def ReportsNoMem (M : PhyMem) (k : Kernel) (mm : FfMm) (m : Memory) (cloneFlags : Word)
    (r : PtRegs) : Prop :=
  mm.free = ∅ → ∃ k' mm' m',
    doForkIn forkretAddr M.start k mm m cloneFlags r = .ok (-eNoMem, k', mm', m')

end Call

/-! ## The states -/

/-- The tasks, the page manager, and the pages in use. -/
structure PagedSys extends Sys where
  pages : Client

/-- What happens next to tasks and pages. -/
inductive PagedStep (M : PhyMem) : PagedSys → PagedSys → Prop where
  /-- a step of a task that takes no page -/
  | task {w : PagedSys} {e : Ev} {s : Sys} : Step w.toSys e s → (∀ t, e ≠ .alloc t) →
      PagedStep M w ⟨s, w.pages⟩
  /-- `alloc_task_struct`; without a page nothing happens any more -/
  | alloc {w : PagedSys} {mm : FfMm} {addr : Nat} : w.pc w.current = .forkChecked →
      ffAllocPages M.start w.pages.mm 1 = .ok (mm, addr) → addr ≠ 0 →
      PagedStep M w ⟨w.toSys.allocated (taskWord addr).toNat, ⟨mm, (addr, 1) :: w.pages.live⟩⟩
  /-- the rest of the kernel: `map` takes single pages, and a longer request finds a first run that
  is long enough -/
  | take {w : PagedSys} {mm : FfMm} {n addr : Nat} : n = 1 ∨ firstFits w.pages.mm n = true →
      ffAllocPages M.start w.pages.mm n = .ok (mm, addr) →
      PagedStep M w ⟨w.toSys, ⟨mm, if addr = 0 then w.pages.live else (addr, n) :: w.pages.live⟩⟩
  | give {w : PagedSys} {mm : FfMm} {x : Nat × Nat} : x ∈ w.pages.live →
      w.taken (taskWord x.1).toNat = false → ffFreePages M.start w.pages.mm x.1 x.2 = .ok mm →
      PagedStep M w ⟨w.toSys, ⟨mm, w.pages.live.erase x⟩⟩

/-- From `task_init` on. By then `mm_init` has taken the heap from the page manager, in one request
while the free pages were one run. Idle's page is part of the kernel image. -/
inductive PagedRun (M : PhyMem) : PagedSys → Prop where
  | start (k : Kernel) {idleTask : Addr} {c : Client} : FirstFit.Run M firstFits c →
      idleTask < paToKa M.start → PagedRun M ⟨start k idleTask, c⟩
  | step {w w' : PagedSys} : PagedRun M w → PagedStep M w w' → PagedRun M w'

/-! ## One page -/

theorem taskWord_toNat (addr : Nat) : (taskWord addr).toNat = paToKa addr := by
  unfold taskWord paToKa u32
  rw [BitVec.toNat_add, BitVec.toNat_ofNat, BitVec.toNat_ofNat, ← Nat.add_mod]

section Pages

variable {M : PhyMem} {i j : Nat}

theorem addr_lt (hi : i < M.count) : M.addr i < zoneHighmemAddr := by
  have hhigh := M.high
  have hmul : (i + 1) * pageSize ≤ M.count * pageSize := Nat.mul_le_mul_right _ hi
  have hpos : 0 < pageSize := by decide
  rw [Nat.succ_mul] at hmul
  unfold PhyMem.addr
  omega

/-- Managed pages are mapped one to one. -/
theorem taskWord_addr (hi : i < M.count) : (taskWord (M.addr i)).toNat = M.addr i + kernbase := by
  have hlt := addr_lt hi
  have hhigh : zoneHighmemAddr = 0x38000000 := rfl
  have hbase : kernbase = 0xC0000000 := rfl
  rw [taskWord_toNat, paToKa, u32_of_lt (by omega)]

theorem taskWord_addr_inj (hi : i < M.count) (hj : j < M.count)
    (h : (taskWord (M.addr i)).toNat = (taskWord (M.addr j)).toNat) : i = j := by
  rw [taskWord_addr hi, taskWord_addr hj] at h
  exact M.addr_injective (Nat.add_right_cancel h)

theorem taskWord_ne_zero (hi : i < M.count) : taskWord (M.addr i) ≠ 0 := by
  intro h
  have hz := congrArg BitVec.toNat h
  rw [taskWord_addr hi] at hz
  have hbase : kernbase = 0xC0000000 := rfl
  have : M.addr i + kernbase = 0 := hz
  omega

/-- No managed page is below the first. -/
theorem paToKa_start_le (hi : i < M.count) : paToKa M.start ≤ (taskWord (M.addr i)).toNat := by
  have hfirst := taskWord_addr M.count_pos
  have h0 : M.addr 0 = M.start := by rw [PhyMem.addr, Nat.zero_mul, Nat.add_zero]
  rw [h0, taskWord_toNat] at hfirst
  rw [hfirst, taskWord_addr hi]
  unfold PhyMem.addr
  omega

/-- A single page always fits. -/
theorem firstFits_one {s : FfMm} {l : List Lib.Seg} (h : FirstFit.Rep M s l) :
    firstFits s 1 = true := by
  cases l with
  | nil => exact FirstFit.firstFits_nil h
  | cons r l =>
    have hpos := h.runs.pos r List.mem_cons_self
    exact (FirstFit.firstFits_iff h).2 (Or.inr (Or.inr hpos))

/-- **A request for one page** is served unless no page is free. -/
theorem ffAllocPages_one {c : Client} {l : List Lib.Seg} (h : Shares M c l) :
    (c.mm.free = ∅ ∧ ffAllocPages M.start c.mm 1 = .ok (c.mm, 0)) ∨
      ∃ i mm', i < M.count ∧ i ∈ c.mm.free ∧
        ffAllocPages M.start c.mm 1 = .ok (mm', M.addr i) ∧ mm'.free = c.mm.free \ {i} ∧
        ∃ l', Shares M ⟨mm', (M.addr i, 1) :: c.live⟩ l' := by
  cases l with
  | nil =>
    left
    refine ⟨?_, ?_⟩
    · rw [h.rep.free_eq]
      ext i
      simp [Lib.cellSet, Lib.cellsOf]
    · have hnow : c.mm.phyPageNowCount = 0 := h.rep.now
      rw [ffAllocPages, if_pos (Or.inr (by omega))]
  | cons r l =>
    right
    have hpos := h.rep.runs.pos r List.mem_cons_self
    have hin := h.rep.inside r List.mem_cons_self
    obtain ⟨mm', hcall, hshares⟩ := FirstFit.shares_alloc h Nat.one_pos hpos
    have hone : Lib.Seg.cells (r.1, 1) = {r.1} := by
      ext i
      rw [Lib.Seg.mem_cells, Set.mem_singleton_iff]
      omega
    refine ⟨r.1, mm', by omega, ?_, hcall, ?_, _, hshares⟩
    · rw [h.rep.free_eq, Lib.mem_cellSet]
      exact ⟨r, List.mem_cons_self, Lib.Seg.first_mem hpos⟩
    · rw [hshares.rep.free_eq, h.rep.free_eq, FirstFit.cellSet_takeFront h.rep.runs hpos, hone]

end Pages

/-! ## The pages of the tasks -/

/-- Every task is in a page in use of its own; idle is below the managed pages. -/
structure Owned (M : PhyMem) (w : PagedSys) : Prop where
  shares : ∃ l, Shares M w.pages l
  taken : ∀ t, w.taken t = true → t < paToKa M.start ∨
    ∃ addr, (addr, 1) ∈ w.pages.live ∧ t = (taskWord addr).toNat

section Runs

variable {M : PhyMem} {w w' : PagedSys} {i : Nat}

/-- **A free page holds no task.** -/
theorem Owned.fresh (h : Owned M w) (hi : i < M.count) (hf : i ∈ w.pages.mm.free) :
    w.taken (taskWord (M.addr i)).toNat = false := by
  obtain ⟨l, hl⟩ := h.shares
  by_contra hc
  rcases h.taken _ (eq_true_of_ne_false hc) with hlt | ⟨addr, hlive, heq⟩
  · exact absurd hlt (Nat.not_lt.2 (paToKa_start_le hi))
  · have hex := FirstFit.shares_exclusive hl
    have haddr : addr = M.addr (M.index addr) := (hex.inside _ hlive).1
    have hin : M.index addr + 1 ≤ M.count := (hex.inside _ hlive).2
    rw [haddr] at heq
    have hindex := taskWord_addr_inj hi (show M.index addr < M.count by omega) heq
    obtain ⟨free, hring, -, hfree⟩ := hex.free
    have hmem : (.entry i : FirstFit.PageNode) ∈ free.map .entry := hring.onList_iff.1 hf
    obtain ⟨j, hj, he⟩ := List.mem_map.1 hmem
    obtain rfl : j = i := by simpa using he
    refine ((hfree j).1 hj).2 _ hlive (Lib.Seg.mem_cells.2 ?_)
    rw [PhyMem.liveSeg, ← hindex]
    omega

theorem allocated_taken {s : Sys} {t a : Addr} (ha : a ≠ t)
    (h : (s.allocated t).taken a = true) : s.taken a = true := by
  rw [← h]
  exact (Function.update_of_ne ha ..).symm

/-- Only `alloc_task_struct` takes a page. -/
theorem Step.taken_eq {s s' : Sys} {e : Ev} (h : Step s e s') (he : ∀ t, e ≠ .alloc t) :
    s'.taken = s.taken := by
  cases h with
  | alloc _ _ => exact absurd rfl (he _)
  | refused | check | commit | wake | exit | tick => rfl

theorem Owned.start {k : Kernel} {idleTask : Addr} {c : Client} (hc : FirstFit.Run M firstFits c)
    (hidle : idleTask < paToKa M.start) : Owned M ⟨start k idleTask, c⟩ where
  shares := FirstFit.run_shares hc
  taken t ht := by
    obtain rfl := of_decide_eq_true ht
    exact Or.inl hidle

theorem Owned.step (h : Owned M w) (hs : PagedStep M w w') : Owned M w' := by
  obtain ⟨l, hl⟩ := h.shares
  cases hs with
  | task hs he => exact ⟨⟨l, hl⟩, fun t ht => h.taken t (hs.taken_eq he ▸ ht)⟩
  | @alloc mm addr hpc hcall hne =>
    rcases ffAllocPages_one hl with ⟨-, hnone⟩ | ⟨i, mm', -, -, hsome, -, l', hl'⟩
    · rw [hnone] at hcall
      cases hcall
      exact absurd rfl hne
    · rw [hsome] at hcall
      cases hcall
      refine ⟨⟨l', hl'⟩, fun t ht => ?_⟩
      by_cases htask : t = (taskWord (M.addr i)).toNat
      · exact Or.inr ⟨_, List.mem_cons_self, htask⟩
      · refine (h.taken t (allocated_taken htask ht)).imp_right ?_
        rintro ⟨addr, hlive, heq⟩
        exact ⟨addr, List.mem_cons_of_mem _ hlive, heq⟩
  | @take mm n addr hok hcall =>
    have hfits : firstFits w.pages.mm n = true := hok.elim (· ▸ firstFits_one hl.rep) id
    rcases FirstFit.ffAllocPages_cases hl.rep hfits with hnone | ⟨r, l, rfl, hn, hle⟩
    · rw [hnone] at hcall
      cases hcall
      exact ⟨⟨l, hl⟩, h.taken⟩
    · obtain ⟨mm', hsome, hl'⟩ := FirstFit.shares_alloc hl hn hle
      rw [hsome] at hcall
      cases hcall
      rw [if_neg (M.addr_ne_zero _)]
      refine ⟨⟨_, hl'⟩, fun t ht => (h.taken t ht).imp_right ?_⟩
      rintro ⟨addr, hlive, heq⟩
      exact ⟨addr, List.mem_cons_of_mem _ hlive, heq⟩
  | @give mm x hlive hx hcall =>
    obtain ⟨mm', l', hsome, hl', -, -⟩ := FirstFit.shares_free hl hlive
    rw [hsome] at hcall
    cases hcall
    refine ⟨⟨l', hl'⟩, fun t ht => (h.taken t ht).imp_right ?_⟩
    rintro ⟨addr, haddr, heq⟩
    refine ⟨addr, (List.mem_erase_of_ne ?_).2 haddr, heq⟩
    rintro rfl
    rw [← heq, show w.taken t = true from ht] at hx
    exact Bool.noConfusion hx

/-- A step leaves the tasks alone or is one of theirs. -/
theorem PagedStep.sys (h : Owned M w) (hs : PagedStep M w w') :
    w'.toSys = w.toSys ∨ ∃ e, Step w.toSys e w'.toSys := by
  cases hs with
  | task hs _ => exact Or.inr ⟨_, hs⟩
  | @alloc mm addr hpc hcall hne =>
    obtain ⟨l, hl⟩ := h.shares
    rcases ffAllocPages_one hl with ⟨-, hnone⟩ | ⟨i, mm', hi, hf, hsome, -⟩
    · rw [hnone] at hcall
      cases hcall
      exact absurd rfl hne
    · rw [hsome] at hcall
      cases hcall
      exact Or.inr ⟨_, .alloc hpc (h.fresh hi hf)⟩
  | take | give => exact Or.inl rfl

theorem PagedRun.owned (h : PagedRun M w) : Owned M w := by
  induction h with
  | start k hc hidle => exact .start hc hidle
  | step _ hs ih => exact ih.step hs

/-- **A run with its pages is a run of the tasks.** -/
theorem PagedRun.run (h : PagedRun M w) : ∃ es, Run es w.toSys := by
  induction h with
  | start k _ _ => exact ⟨[], .start k _⟩
  | step hr hs ih =>
    obtain ⟨es, hes⟩ := ih
    rcases hs.sys hr.owned with heq | ⟨e, he⟩
    · exact ⟨es, heq ▸ hes⟩
    · exact ⟨e :: es, hes.step he⟩

end Runs

/-! ## The three ways a call goes -/

section Outcomes

variable {forkretAddr cloneFlags : Word} {start addr : Nat} {t : Addr} {k : Kernel}
  {mm mm' : FfMm} {m : Memory} {r : PtRegs}

theorem doForkIn_limit (h : maxTask ≤ k.nrTask) :
    doForkIn forkretAddr start k mm m cloneFlags r = .ok (-eNoFreeProc, k, mm, m) :=
  if_pos h

/-- Without a page the assertion of `alloc_task_struct` fails. -/
theorem doForkIn_unserved (hn : ¬ maxTask ≤ k.nrTask)
    (ha : ffAllocPages start mm 1 = .ok (mm', 0)) :
    doForkIn forkretAddr start k mm m cloneFlags r =
      .error (.panic "alloc_task_struct error!") := by
  rw [doForkIn, if_neg hn, ha]
  rfl

theorem doForkIn_served (hn : ¬ maxTask ≤ k.nrTask)
    (ha : ffAllocPages start mm 1 = .ok (mm', addr)) (h0 : addr ≠ 0) (hw : taskWord addr ≠ 0)
    (ht : (taskWord addr).toNat = t) :
    doForkIn forkretAddr start k mm m cloneFlags r = .ok ((allocPid k.glbPidMap).2,
      ((k.allocTaskStruct t).forkCommit t).wakeupTask t, mm',
      copyThread forkretAddr (allocTaskStruct m (taskWord addr)) (taskWord addr) r) := by
  have hassert : kassert (addr ≠ 0) "alloc_task_struct error!" = .ok () :=
    kassert_eq_ok.2 (decide_eq_true h0)
  rw [doForkIn, if_neg hn, ha]
  simp only [bind, Except.bind, hassert]
  generalize taskWord addr = task at hw ht ⊢
  subst ht
  have hmm : copyMm cloneFlags task = 0 := if_neg fun h => hw h.2
  rw [if_neg hw, if_neg (not_not.2 hmm), forked_pid]
  rfl

theorem ffAllocPages_lt {n : Nat} (h : ffAllocPages start mm n = .ok (mm', addr)) :
    addr < 2 ^ 32 := by
  unfold ffAllocPages at h
  split at h
  · cases h
    decide
  · split at h
    · cases h
      decide
    · obtain ⟨a, ha, h⟩ := Kern.bind_eq_ok.1 h
      obtain ⟨-, -, ha⟩ := Kern.bind_eq_ok.1 ha
      cases h
      cases ha
      exact Nat.mod_lt _ (by decide)

/-- A call that returns is one of `doFork`. -/
theorem doForkIn_doFork {ret : Int} {k' : Kernel} {m' : Memory}
    (h : doForkIn forkretAddr start k mm m cloneFlags r = .ok (ret, k', mm', m')) :
    ∃ addr, doFork forkretAddr k m addr cloneFlags r = .ok (ret, k', m') := by
  unfold doForkIn at h
  split at h
  · next hn =>
    cases h
    refine ⟨0, ?_⟩
    rw [doFork, if_pos hn]
  · next hn =>
    obtain ⟨⟨mm₁, addr⟩, ha, h⟩ := Kern.bind_eq_ok.1 h
    obtain ⟨u, hassert, h⟩ := Kern.bind_eq_ok.1 h
    have hne : addr ≠ 0 := of_decide_eq_true (kassert_eq_ok.1 hassert)
    have hword : BitVec.ofNat 32 addr ≠ 0 := fun hz => by
      have hnat := congrArg BitVec.toNat hz
      rw [BitVec.toNat_ofNat, Nat.mod_eq_of_lt (ffAllocPages_lt ha)] at hnat
      exact hne hnat
    have hassert' : kassert (BitVec.ofNat 32 addr ≠ 0) "alloc_task_struct error!" = .ok () :=
      kassert_eq_ok.2 (decide_eq_true hword)
    refine ⟨BitVec.ofNat 32 addr, ?_⟩
    obtain ⟨task, htask⟩ : ∃ task, BitVec.ofNat 32 addr + BitVec.ofNat 32 kernbase = task :=
      ⟨_, rfl⟩
    simp only [taskWord, htask] at h
    simp only [doFork, if_neg hn, hassert', htask, bind, Except.bind]
    split at h
    · next hz =>
      rw [if_pos hz]
      cases h
      rfl
    · next hz =>
      rw [if_neg hz]
      split at h
      · next hmm =>
        rw [if_pos hmm]
        obtain ⟨mm₂, -, h⟩ := Kern.bind_eq_ok.1 h
        cases h
        rfl
      · next hmm =>
        rw [if_neg hmm]
        cases h
        rfl

end Outcomes

section Outcomes

variable {M : PhyMem} {w : PagedSys} {tasks : List Addr} {i : Nat} {t : Addr} {mm' : FfMm}

/-- **A fork with a page of its own makes one task.** -/
theorem Inv.forked (h : Inv w.toSys tasks) (hn : w.nrTask < maxTask) (hi : i ∈ w.pages.mm.free)
    (hfree : mm'.free = w.pages.mm.free \ {i}) (hword : (taskWord (M.addr i)).toNat = t)
    (ht : w.taken t = false) :
    Forked M w.toKernel w.pages.mm (allocPid w.glbPidMap).2 (w.toSys.forked t).toKernel mm' := by
  have hmem : t ∉ tasks := fun hm => by
    rw [h.taken t hm] at ht
    exact Bool.noConfusion ht
  have hlinks : (w.toSys.forked t).links = listAdd w.links (.entry t) taskList :=
    Kernel.wakeupTask_links ..
  have hmap : (w.toSys.forked t).glbPidMap = (allocPid w.glbPidMap).1 :=
    Kernel.wakeupTask_glbPidMap ..
  have hroom : (w.toSys.livePids tasks).length < maxPid := by
    have hnr := h.nr
    have hmp : maxPid = 8192 := rfl
    have hmt : maxTask = 4096 := rfl
    omega
  obtain ⟨p, hp, hclear, -, hret, hbits⟩ := allocPid_spec (h.numbers.free hroom)
  have hadd := h.list.add_ring hmem
  rw [← hlinks] at hadd
  exact {
    pid := by
      rw [hret]
      exact Int.natCast_nonneg p
    added := ⟨i, t, tasks, hi, hfree, hword, h.list.ring, hmem, hadd, forked_child_state,
      forked_pid .., fun _ => forked_task_of_ne⟩
    nrTask := forked_nrTask ..
    pidMap := ⟨p, hp, hret, hclear, fun q => by rw [hmap, hbits]⟩ }

/-- A call of `do_fork` reaches the limit, panics, or makes a task. -/
theorem PagedRun.doFork_cases (h : PagedRun M w) (forkretAddr cloneFlags : Word) (m : Memory)
    (r : PtRegs) :
    (maxTask ≤ w.nrTask ∧ doForkIn forkretAddr M.start w.toKernel w.pages.mm m cloneFlags r =
        .ok (-eNoFreeProc, w.toKernel, w.pages.mm, m)) ∨
      (w.nrTask < maxTask ∧ w.pages.mm.free = ∅ ∧
        doForkIn forkretAddr M.start w.toKernel w.pages.mm m cloneFlags r =
          .error (.panic "alloc_task_struct error!")) ∨
      (w.nrTask < maxTask ∧ ∃ addr t mm' m',
        ffAllocPages M.start w.pages.mm 1 = .ok (mm', addr) ∧ addr ≠ 0 ∧
        (taskWord addr).toNat = t ∧ w.taken t = false ∧
        doForkIn forkretAddr M.start w.toKernel w.pages.mm m cloneFlags r =
          .ok ((allocPid w.glbPidMap).2, (w.toSys.forked t).toKernel, mm', m') ∧
        Forked M w.toKernel w.pages.mm (allocPid w.glbPidMap).2 (w.toSys.forked t).toKernel
          mm') := by
  by_cases hn : maxTask ≤ w.nrTask
  · exact Or.inl ⟨hn, doForkIn_limit hn⟩
  right
  have hlt : w.nrTask < maxTask := by omega
  obtain ⟨l, hl⟩ := h.owned.shares
  obtain ⟨es, hes⟩ := h.run
  obtain ⟨tasks, hinv⟩ := hes.inv
  rcases ffAllocPages_one hl with ⟨hempty, hnone⟩ | ⟨i, mm', hi, hf, hsome, hfree, -⟩
  · exact Or.inl ⟨hlt, hempty, doForkIn_unserved hn hnone⟩
  · have hfresh := h.owned.fresh hi hf
    obtain ⟨t, ht⟩ : ∃ t, (taskWord (M.addr i)).toNat = t := ⟨_, rfl⟩
    rw [ht] at hfresh
    exact Or.inr ⟨hlt, _, t, mm', _, hsome, M.addr_ne_zero i, ht, hfresh,
      doForkIn_served hn hsome (M.addr_ne_zero i) (taskWord_ne_zero hi) ht,
      hinv.forked hlt hf hfree ht hfresh⟩

/-- **A call is made of steps**: a task that is not inside `do_fork` gets through it to a state of a
run. -/
theorem PagedRun.doFork_reaches (h : PagedRun M w) (hpc : w.pc w.current = .user)
    {forkretAddr cloneFlags : Word} {m m' : Memory} {r : PtRegs} {ret : Int} {k' : Kernel}
    (hf : doForkIn forkretAddr M.start w.toKernel w.pages.mm m cloneFlags r =
      .ok (ret, k', mm', m')) :
    ∃ w', PagedRun M w' ∧ w'.toKernel = k' ∧ w'.pages.mm = mm' := by
  rcases h.doFork_cases forkretAddr cloneFlags m r with ⟨-, hcall⟩ | ⟨-, -, hcall⟩ |
    ⟨hlt, addr, t, mm₁, m₁, hpage, hne, ht, -, hcall, -⟩
  · rw [hcall] at hf
    cases hf
    exact ⟨w, h, rfl, rfl⟩
  · rw [hcall] at hf
    cases hf
  · rw [hcall] at hf
    cases hf
    have h1 := h.step (.task (.check hpc hlt) fun _ => Ev.noConfusion)
    have h2 := h1.step (.alloc (goto_pc_self w.toSys _) hpage hne)
    rw [ht] at h2
    have h3 := h2.step (.task (.commit (allocated_pc _ t)) fun _ => Ev.noConfusion)
    have h4 := h3.step (.task (.wake (committed_pc _ t)) fun _ => Ev.noConfusion)
    exact ⟨_, h4, congrArg Sys.toKernel (forked_eq hpc), rfl⟩

/-- **When `do_fork` is all or nothing**: at the limit on tasks, or with a free page. Without a free
page it never returns `-E_NO_MEM`: at the limit it returns `-E_NO_FREE_PROC`, below it panics. -/
theorem doFork_allOrNothing_iff (h : PagedRun M w) (forkretAddr cloneFlags : Word) (m : Memory)
    (r : PtRegs) :
    (AllOrNothing forkretAddr M w.toKernel w.pages.mm m cloneFlags r ↔
      maxTask ≤ w.nrTask ∨ w.pages.mm.free.Nonempty) ∧
    (AllOrNothing forkretAddr M w.toKernel w.pages.mm m cloneFlags r ∧
        ReportsNoMem forkretAddr M w.toKernel w.pages.mm m cloneFlags r ↔
      w.pages.mm.free.Nonempty) := by
  have hcases := h.doFork_cases forkretAddr cloneFlags m r
  have hiff : AllOrNothing forkretAddr M w.toKernel w.pages.mm m cloneFlags r ↔
      maxTask ≤ w.nrTask ∨ w.pages.mm.free.Nonempty := by
    rcases hcases with ⟨hn, hcall⟩ | ⟨hlt, hempty, hcall⟩ |
      ⟨-, addr, t, mm', m', -, -, -, -, hcall, hforked⟩
    · exact iff_of_true ⟨_, _, _, _, hcall, Or.inr ⟨by decide, rfl, rfl, rfl, rfl⟩⟩ (Or.inl hn)
    · refine iff_of_false (fun ⟨_, _, _, _, hok, _⟩ => ?_) ?_
      · rw [hcall] at hok
        cases hok
      · rw [hempty]
        exact not_or.2 ⟨by omega, Set.not_nonempty_empty⟩
    · obtain ⟨i, -, -, hi, -⟩ := hforked.added
      exact iff_of_true ⟨_, _, _, _, hcall, Or.inl hforked⟩ (Or.inr ⟨i, hi⟩)
  refine ⟨hiff, fun hboth => ?_, fun hne => ⟨hiff.2 (Or.inr hne), fun hempty => ?_⟩⟩
  · by_contra hempty
    rw [Set.not_nonempty_iff_eq_empty] at hempty
    obtain ⟨k', mm', m', hok⟩ := hboth.2 hempty
    rcases hcases with ⟨-, hcall⟩ | ⟨-, -, hcall⟩ | ⟨-, _, _, _, _, -, -, -, -, -, hforked⟩
    · rw [hcall] at hok
      exact absurd (Prod.mk.inj (Except.ok.inj hok)).1 (by decide)
    · rw [hcall] at hok
      cases hok
    · obtain ⟨i, -, -, hi, -⟩ := hforked.added
      rw [hempty] at hi
      exact hi
  · exact absurd hempty hne.ne_empty

end Outcomes

/-! ### Three pages -/

section Three

open FirstFit (phyMem3)

/-- After `page_init` three pages are free, and idle can make a task. -/
theorem doFork_allOrNothing_free : ∃ s : FfMm,
    AllOrNothing 0x100 phyMem3 (start bare 0).toKernel s (fun _ => 0) 0 PtRegs.zero ∧
      ReportsNoMem 0x100 phyMem3 (start bare 0).toKernel s (fun _ => 0) 0 PtRegs.zero := by
  obtain ⟨s₀, c₀, r₀⟩ := FirstFit.exists_init firstFits
  have hfree : 0 ∈ s₀.free := by
    rw [r₀.free_eq, Lib.mem_cellSet]
    exact ⟨_, List.mem_cons_self, Lib.Seg.mem_cells.2 (by decide)⟩
  exact ⟨s₀, (doFork_allOrNothing_iff (.start bare c₀ (by decide)) 0x100 0 (fun _ => 0)
    PtRegs.zero).2.2 ⟨0, hfree⟩⟩

/-- Once somebody else has all three, the next `do_fork` halts the kernel. -/
theorem not_allOrNothing : ¬ ∀ (M : PhyMem) (w : PagedSys), PagedRun M w →
    ∀ (forkretAddr cloneFlags : Word) (m : Memory) (r : PtRegs),
      AllOrNothing forkretAddr M w.toKernel w.pages.mm m cloneFlags r ∧
        ReportsNoMem forkretAddr M w.toKernel w.pages.mm m cloneFlags r := by
  intro h
  obtain ⟨s₀, c₀, r₀⟩ := FirstFit.exists_init firstFits
  obtain ⟨s₁, h₁, r₁, -⟩ := FirstFit.ffAllocPages_first (n := 3) r₀ (by decide) (by decide)
  have c₁ : FirstFit.Run phyMem3 firstFits ⟨s₁, [(0x200000, 3)]⟩ :=
    c₀.alloc_live (by decide) ((FirstFit.firstFits_iff r₀).mpr (by decide)) h₁ (by decide)
  have hnow : s₁.phyPageNowCount = 0 := r₁.now
  have hnone : ffAllocPages phyMem3.start s₁ 1 = .ok (s₁, 0) := by
    rw [ffAllocPages, if_pos (Or.inr (by omega))]
  have hrun : PagedRun phyMem3 ⟨start bare 0, ⟨s₁, [(0x200000, 3)]⟩⟩ :=
    .start bare c₁ (by decide)
  have hlt : ¬ (maxTask : Int) ≤ (start bare 0).nrTask := by decide
  obtain ⟨⟨ret, k', mm', m', hok, -⟩, -⟩ := h phyMem3 _ hrun 0x100 0 (fun _ => 0) PtRegs.zero
  rw [doForkIn_unserved hlt hnone] at hok
  cases hok

end Three

end Hurlex.Task
