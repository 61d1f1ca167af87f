import Hurlex.Lib.Machine

/-!
# Switching tasks

`arch/i386/task/switch_to.s` instruction by instruction.
-/

namespace Hurlex.Task

open Lib.Machine

/-- `struct context`, in the order of its fields. -/
structure Context where
  eip : Word
  esp : Word
  ebx : Word
  ecx : Word
  edx : Word
  esi : Word
  edi : Word
  ebp : Word
  deriving DecidableEq

/-- The `struct context` at `a`. -/
def contextAt (m : Memory) (a : Word) : Context where
  eip := read32 m (a + 0)
  esp := read32 m (a + 4)
  ebx := read32 m (a + 8)
  ecx := read32 m (a + 12)
  edx := read32 m (a + 16)
  esi := read32 m (a + 20)
  edi := read32 m (a + 24)
  ebp := read32 m (a + 28)

/-- `switch_to` up to the point where `from` is saved. -/
def save : List Instr :=
  [.load .eax .esp 4,
   .push .ebx,
   .load .ebx .esp 4,
   .store .eax 0 .ebx,
   .pop .ebx,
   .store .eax 4 .esp,
   .store .eax 8 .ebp,
   .store .eax 12 .ecx,
   .store .eax 16 .edx,
   .store .eax 20 .esi,
   .store .eax 24 .edi,
   .store .eax 28 .ebp]

/-- The rest, which loads `to`. -/
def restore : List Instr :=
  [.load .eax .esp 8,
   .load .ebp .eax 28,
   .load .edi .eax 24,
   .load .esi .eax 20,
   .load .edx .eax 16,
   .load .ecx .eax 12,
   .load .ebx .eax 8,
   .load .esp .eax 4,
   .push .ebx,
   .push .ebx,
   .load .ebx .eax 0,
   .store .esp 4 .ebx,
   .pop .ebx,
   .ret]

def switchTo (s : State) : State := run s (save ++ restore)

/-! ## Contexts in memory -/

/-- `c` stored at `a`. -/
def putContext (m : Memory) (a : Word) (c : Context) : Memory :=
  let m := write32 m (a + 0) c.eip
  let m := write32 m (a + 4) c.esp
  let m := write32 m (a + 8) c.ebx
  let m := write32 m (a + 12) c.ecx
  let m := write32 m (a + 16) c.edx
  let m := write32 m (a + 20) c.esi
  let m := write32 m (a + 24) c.edi
  write32 m (a + 28) c.ebp

variable {m m' : Memory} {a x : Word} {c : Context}

theorem contextAt_putContext (m : Memory) (a : Word) (c : Context) :
    contextAt (putContext m a c) a = c := by
  simp (disch := exact bytesFrom_add_disjoint _ (by decide) (by decide)) only
    [contextAt, putContext, read32_write32, read32_write32_of_disjoint]

/-- A word of a context is part of it. -/
theorem field_subset (a : Word) {k : Nat} (hk : k + 4 ≤ 32) :
    bytesFrom (a + BitVec.ofNat 32 k) 4 ⊆ bytesFrom a 32 :=
  bytesFrom_subset a hk (by decide)

theorem putContext_of_notMem (h : x ∉ bytesFrom a 32) : putContext m a c x = m x := by
  have off (k : Nat) (hk : k + 4 ≤ 32) : x ∉ bytesFrom (a + BitVec.ofNat 32 k) 4 :=
    fun hx => h (field_subset a hk hx)
  refine (write32_of_notMem (off 28 (by decide))).trans ?_
  refine (write32_of_notMem (off 24 (by decide))).trans ?_
  refine (write32_of_notMem (off 20 (by decide))).trans ?_
  refine (write32_of_notMem (off 16 (by decide))).trans ?_
  refine (write32_of_notMem (off 12 (by decide))).trans ?_
  refine (write32_of_notMem (off 8 (by decide))).trans ?_
  refine (write32_of_notMem (off 4 (by decide))).trans ?_
  exact write32_of_notMem (off 0 (by decide))

/-- A context is read off its own 32 bytes. -/
theorem contextAt_congr (h : ∀ x ∈ bytesFrom a 32, m x = m' x) :
    contextAt m a = contextAt m' a := by
  have field {k : Nat} (hk : k + 4 ≤ 32) :
      read32 m (a + BitVec.ofNat 32 k) = read32 m' (a + BitVec.ofNat 32 k) :=
    read32_congr fun x hx => h x (field_subset a hk hx)
  simp only [contextAt, Context.mk.injEq]
  exact ⟨field (k := 0) (by decide), field (k := 4) (by decide), field (k := 8) (by decide),
    field (k := 12) (by decide), field (k := 16) (by decide), field (k := 20) (by decide),
    field (k := 24) (by decide), field (k := 28) (by decide)⟩

/-! ## The two halves -/

/-- The registers a `struct context` has fields for. -/
def registers (s : State) : Context where
  eip := s.eip
  esp := s.gpr .esp
  ebx := s.gpr .ebx
  ecx := s.gpr .ecx
  edx := s.gpr .edx
  esi := s.gpr .esi
  edi := s.gpr .edi
  ebp := s.gpr .ebp

/-- What `switch_to` saves of a caller. The slot of `ebx` takes `ebp`, and `esp` still has the
return address under it. -/
def saved (s : State) : Context :=
  { registers s with eip := read32 s.mem (s.gpr .esp), ebx := s.gpr .ebp }

/-- `s` is at the entry of `switch_to(prev, next)`, and the stack it works on lies apart from the
context it saves to. -/
structure Call (s : State) (prev next : Word) : Prop where
  prev_arg : read32 s.mem (s.gpr .esp + 4) = prev
  next_arg : read32 s.mem (s.gpr .esp + 8) = next
  apart : Disjoint (bytesFrom (s.gpr .esp - 8) 20) (bytesFrom prev 32)

/-- Where the first half writes. -/
def saveWrites (s : State) (prev : Word) : Set Word :=
  bytesFrom (s.gpr .esp - 4) 4 ∪ bytesFrom prev 32

/-- Where the second half writes: below the stack pointer it loads. -/
def restoreWrites (s : State) (next : Word) : Set Word :=
  bytesFrom ((contextAt (run s save).mem next).esp - 8) 8

variable {s t u : State} {prev next : Word}

theorem frame_subset (e : Word) {k : Nat} (hk : k ≤ 20) :
    bytesFrom (e - 8) k ⊆ bytesFrom (e - 8) 20 :=
  fun _ hx => Nat.lt_of_lt_of_le hx hk

/-- Four bytes of the frame of a call are apart from the saved context. -/
theorem Call.slot_apart (h : Call s prev next) {e : Word} (he : (e - (s.gpr .esp - 8)).toNat ≤ 16) :
    Disjoint (bytesFrom e 4) (bytesFrom prev 32) := by
  refine h.apart.mono_left fun x hx => ?_
  have hx : (x - e).toNat < 4 := hx
  show (x - (s.gpr .esp - 8)).toNat < 20
  bv_omega

theorem Call.save_mem (h : Call s prev next) :
    (run s save).mem = putContext (write32 s.mem (s.gpr .esp - 4) (s.gpr .ebx)) prev (saved s) := by
  have top : read32 (write32 s.mem (s.gpr .esp - 4) (s.gpr .ebx)) (s.gpr .esp) =
      read32 s.mem (s.gpr .esp) :=
    read32_write32_of_disjoint (bytesFrom_disjoint (by bv_omega) (by bv_omega))
  simp only [save, run_cons, run_nil, exec, State.set_gpr, State.set_mem, reduceCtorEq, if_true,
    if_false, BitVec.sub_add_cancel, h.prev_arg, top, putContext, saved, registers]

/-- The pushed `ebx` comes back. -/
theorem Call.save_gpr (h : Call s prev next) {r : Reg} (hr : r ≠ .eax) :
    (run s save).gpr r = s.gpr r := by
  have kept (v : Word) : read32 (write32 (write32 s.mem (s.gpr .esp - 4) (s.gpr .ebx))
      (prev + 0) v) (s.gpr .esp - 4) = s.gpr .ebx := by
    rw [read32_write32_of_disjoint, read32_write32]
    exact (h.slot_apart (by bv_omega)).mono_right (field_subset prev (k := 0) (by decide))
  simp only [save, run_cons, run_nil, exec, State.set_gpr, State.set_mem, reduceCtorEq, if_true,
    if_false, BitVec.sub_add_cancel, h.prev_arg, kept]
  cases r <;> simp at hr ⊢

theorem Call.save_frame (h : Call s prev next) (hx : x ∉ saveWrites s prev) :
    (run s save).mem x = s.mem x := by
  rw [h.save_mem, putContext_of_notMem fun hc => hx (Or.inr hc),
    write32_of_notMem fun hc => hx (Or.inl hc)]

/-- The first half stores the caller's context. -/
theorem Call.contextAt_save (h : Call s prev next) : contextAt (run s save).mem prev = saved s := by
  rw [h.save_mem, contextAt_putContext]

/-- The second argument is still there for the second half. -/
theorem Call.save_next_arg (h : Call s prev next) :
    read32 (run s save).mem ((run s save).gpr .esp + 8) = next := by
  rw [h.save_gpr (by decide), ← h.next_arg]
  refine read32_congr fun x hx => h.save_frame ?_
  rintro (hp | hc)
  · have hd : Disjoint (bytesFrom (s.gpr .esp + 8) 4) (bytesFrom (s.gpr .esp - 4) 4) :=
      bytesFrom_disjoint (by bv_omega) (by bv_omega)
    exact Set.disjoint_left.1 hd hx hp
  · exact Set.disjoint_left.1 (h.slot_apart (by bv_omega)) hx hc

section Restore

variable (hn : read32 t.mem (t.gpr .esp + 8) = next)
  (hd : Disjoint (bytesFrom (read32 t.mem (next + 4) - 8) 8) (bytesFrom next 32))

include hd in
/-- The pushes leave the return address of the context alone. -/
theorem restore_eip_kept (v w : Word) :
    read32 (write32 (write32 t.mem (read32 t.mem (next + 4) - 4) v)
      (read32 t.mem (next + 4) - 4 - 4) w) (next + 0) = read32 t.mem (next + 0) := by
  have off {e : Word} (he : (e - (read32 t.mem (next + 4) - 8)).toNat ≤ 4) :
      Disjoint (bytesFrom (next + 0) 4) (bytesFrom e 4) := by
    refine (hd.mono (fun x hx => ?_) (field_subset next (k := 0) (by decide))).symm
    have hx : (x - e).toNat < 4 := hx
    show (x - (read32 t.mem (next + 4) - 8)).toNat < 8
    bv_omega
  rw [read32_write32_of_disjoint (off (by bv_omega)),
    read32_write32_of_disjoint (off (by bv_omega))]

include hn in
/-- The two pushes and the store all land below the loaded stack pointer. -/
theorem restore_frame (hx : x ∉ bytesFrom (read32 t.mem (next + 4) - 8) 8) :
    (run t restore).mem x = t.mem x := by
  have off {e : Word} (he : (e - (read32 t.mem (next + 4) - 8)).toNat ≤ 4) :
      x ∉ bytesFrom e 4 := by
    intro hc
    have hc : (x - e).toNat < 4 := hc
    refine hx (show (x - (read32 t.mem (next + 4) - 8)).toNat < 8 from ?_)
    bv_omega
  simp only [restore, run_cons, run_nil, exec, State.set_gpr, State.set_mem, reduceCtorEq, if_true,
    if_false, BitVec.sub_add_cancel, hn]
  rw [write32_of_notMem (off (by bv_omega)), write32_of_notMem (off (by bv_omega)),
    write32_of_notMem (off (by bv_omega))]

include hn hd in
/-- The second half loads the whole of a context. -/
theorem registers_restore : registers (run t restore) = contextAt t.mem next := by
  have below (m : Memory) (e v w : Word) : read32 (write32 (write32 m (e - 4 - 4) v) (e - 4) w)
      (e - 4 - 4) = v := by
    rw [read32_write32_of_disjoint (bytesFrom_disjoint (by bv_omega) (by bv_omega)),
      read32_write32]
  simp only [registers, contextAt, restore, run_cons, run_nil, exec, State.set_gpr, State.set_mem,
    State.set_eip, reduceCtorEq, if_true, if_false, BitVec.sub_add_cancel, hn, restore_eip_kept hd,
    below, read32_write32]

end Restore

/-! ## Away and back -/

theorem switchTo_eq (s : State) : switchTo s = run (run s save) restore := run_append s save restore

theorem Call.switchTo_frame (h : Call s prev next) (hx : x ∉ saveWrites s prev)
    (hx' : x ∉ restoreWrites s next) : (switchTo s).mem x = s.mem x := by
  rw [switchTo_eq, restore_frame h.save_next_arg hx', h.save_frame hx]

/-- `u` is reached after the task that called `switch_to(_, next)` in `s` has left: other tasks run
and switch among each other, and nobody writes to `P`. -/
inductive Away (P : Set Word) (s : State) (next : Word) : State → Prop where
  | left {u : State} : Disjoint P (restoreWrites s next) → (∀ x ∈ P, u.mem x = (switchTo s).mem x) →
      Away P s next u
  | switch {t u : State} {x y : Word} : Away P s next t → Call t x y → Disjoint P (saveWrites t x) →
      Disjoint P (restoreWrites t y) → (∀ x ∈ P, u.mem x = (switchTo t).mem x) → Away P s next u

variable {P : Set Word}

/-- Whatever runs in between, `P` is as the first half of the call left it. -/
theorem Away.mem (h : Call s prev next) :
    ∀ {u : State}, Away P s next u → ∀ x ∈ P, u.mem x = (run s save).mem x
  | _, .left hr hu, x, hx => by
    rw [hu x hx, switchTo_eq, restore_frame h.save_next_arg (Set.disjoint_left.1 hr hx)]
  | _, .switch ht hc hs hr hu, x, hx => by
    rw [hu x hx, hc.switchTo_frame (Set.disjoint_left.1 hs hx) (Set.disjoint_left.1 hr hx),
      ht.mem h x hx]

/-- **What a task comes back to.** The registers saved on its own call, whoever resumes it. -/
theorem registers_resumed (h : Call s prev next) (hP : bytesFrom prev 32 ⊆ P)
    (hu : Away P s next u) (hc : Call u a prev) (hs : Disjoint P (saveWrites u a)) :
    registers (switchTo u) = saved s := by
  have kept : contextAt (run u save).mem prev = saved s := by
    rw [← h.contextAt_save]
    refine contextAt_congr fun x hx => ?_
    rw [hc.save_frame (Set.disjoint_left.1 hs (hP hx)), hu.mem h x (hP hx)]
  have hd : Disjoint (bytesFrom (read32 (run u save).mem (prev + 4) - 8) 8) (bytesFrom prev 32) := by
    rw [show read32 (run u save).mem (prev + 4) = s.gpr .esp from congrArg Context.esp kept]
    exact h.apart.mono_left (frame_subset _ (by decide))
  rw [switchTo_eq, registers_restore hc.save_next_arg hd, kept]

/-- The contract of a call for its caller: it returns behind the call, `ebx`, `esi`, `edi` and
`ebp` are kept, and the return address is popped. -/
structure Transparent (s t : State) : Prop where
  eip : t.eip = read32 s.mem (s.gpr .esp)
  ebx : t.gpr .ebx = s.gpr .ebx
  esi : t.gpr .esi = s.gpr .esi
  edi : t.gpr .edi = s.gpr .edi
  ebp : t.gpr .ebp = s.gpr .ebp
  esp : t.gpr .esp = s.gpr .esp + 4

/-- **No switch is transparent.** The task continues behind its call with `esi`, `edi` and `ebp` as
they were, but with `ebp` in `ebx`, and with its return address still on the stack. -/
theorem resumed_not_transparent (h : Call s prev next) (hP : bytesFrom prev 32 ⊆ P)
    (hu : Away P s next u) (hc : Call u a prev) (hs : Disjoint P (saveWrites u a)) :
    ¬ Transparent s (switchTo u) := by
  intro ht
  have esp : (switchTo u).gpr .esp = s.gpr .esp :=
    congrArg Context.esp (registers_resumed h hP hu hc hs)
  have := ht.esp
  rw [esp] at this
  bv_omega

/-! ### Two tasks

A's context is at `0x1000` and its stack below `0x2000`; B's are at `0x2000` and below `0x3000`. -/

/-- A calls `switch_to(0x1000, 0x2000)` from `0x100100`, with 7 in `ebx`. -/
def leaveA : State where
  gpr := fun r => if r = .ebx then 7 else if r = .esp then 0x1F00 else 0
  eip := 0
  mem := write32 (write32 (write32 (write32 (fun _ => 0) 0x1F00 0x100100) 0x1F04 0x1000)
    0x1F08 0x2000) 0x2004 0x2F00

/-- B calls `switch_to(0x2000, 0x1000)` after it has been dispatched. -/
def leaveB : State where
  gpr := fun r => if r = .esp then 0x2EF0 else 0
  eip := 0
  mem := write32 (write32 (switchTo leaveA).mem 0x2EF4 0x2000) 0x2EF8 0x1000

/-- A's context and stack. -/
def pageA : Set Word := bytesFrom 0x1000 0x1000

theorem leaveA_call : Call leaveA 0x1000 0x2000 where
  prev_arg := by
    show read32 (write32 (write32 (write32 _ 0x1F04 0x1000) 0x1F08 0x2000) 0x2004 0x2F00) 0x1F04 = _
    rw [read32_write32_of_disjoint (bytesFrom_disjoint (by decide) (by decide)),
      read32_write32_of_disjoint (bytesFrom_disjoint (by decide) (by decide)), read32_write32]
  next_arg := by
    show read32 (write32 (write32 _ 0x1F08 0x2000) 0x2004 0x2F00) 0x1F08 = _
    rw [read32_write32_of_disjoint (bytesFrom_disjoint (by decide) (by decide)), read32_write32]
  apart := bytesFrom_disjoint (by decide) (by decide)

theorem leaveB_call : Call leaveB 0x2000 0x1000 where
  prev_arg := by
    show read32 (write32 (write32 _ 0x2EF4 0x2000) 0x2EF8 0x1000) 0x2EF4 = _
    rw [read32_write32_of_disjoint (bytesFrom_disjoint (by decide) (by decide)), read32_write32]
  next_arg := read32_write32 _ _ _
  apart := bytesFrom_disjoint (by decide) (by decide)

/-- Switching to B writes to B's stack only. -/
theorem leaveA_restoreWrites : restoreWrites leaveA 0x2000 = bytesFrom (0x2F00 - 8) 8 := by
  have saved_esp : read32 leaveA.mem 0x2004 = 0x2F00 := read32_write32 _ _ _
  have kept : read32 (run leaveA save).mem 0x2004 = read32 leaveA.mem 0x2004 := by
    refine read32_congr fun x hx => leaveA_call.save_frame ?_
    have hd : Disjoint (bytesFrom 0x2004 4) (saveWrites leaveA 0x1000) :=
      Set.disjoint_union_right.2 ⟨bytesFrom_disjoint (by decide) (by decide),
        bytesFrom_disjoint (by decide) (by decide)⟩
    exact Set.disjoint_left.1 hd hx
  show bytesFrom (read32 (run leaveA save).mem 0x2004 - 8) 8 = _
  rw [kept, saved_esp]

theorem leaveB_away : Away pageA leaveA 0x2000 leaveB := by
  refine .left ?_ fun x hx => ?_
  · rw [leaveA_restoreWrites]
    exact bytesFrom_disjoint (by decide) (by decide)
  · have off {e : Word} (h1 : 0x1000 ≤ (e - 0x1000).toNat) (h2 : 4 ≤ ((0x1000 : Word) - e).toNat) :
        x ∉ bytesFrom e 4 :=
      Set.disjoint_left.1 (bytesFrom_disjoint h1 h2) hx
    show write32 (write32 (switchTo leaveA).mem 0x2EF4 0x2000) 0x2EF8 0x1000 x = _
    rw [write32_of_notMem (off (by decide) (by decide)),
      write32_of_notMem (off (by decide) (by decide))]

theorem leaveB_saveWrites : Disjoint pageA (saveWrites leaveB 0x2000) :=
  Set.disjoint_union_right.2 ⟨bytesFrom_disjoint (by decide) (by decide),
    bytesFrom_disjoint (by decide) (by decide)⟩

theorem contextA_subset : bytesFrom 0x1000 32 ⊆ pageA :=
  fun _ hx => Nat.lt_of_lt_of_le hx (by decide)

theorem resumed_not_transparent_two : ¬ Transparent leaveA (switchTo leaveB) :=
  resumed_not_transparent leaveA_call contextA_subset leaveB_away leaveB_call leaveB_saveWrites

/-- A left with 7 in `ebx` and comes back with 0, its `ebp`. -/
theorem resumed_ebx_lost :
    ¬ ∀ (P : Set Word) (s u : State) (prev next a : Word), Call s prev next →
      bytesFrom prev 32 ⊆ P → Away P s next u → Call u a prev → Disjoint P (saveWrites u a) →
      Transparent s (switchTo u) := by
  intro h
  have ht := h pageA leaveA leaveB 0x1000 0x2000 0x2000 leaveA_call contextA_subset leaveB_away
    leaveB_call leaveB_saveWrites
  have ebx : (switchTo leaveB).gpr .ebx = 0 := congrArg Context.ebx
    (registers_resumed leaveA_call contextA_subset leaveB_away leaveB_call leaveB_saveWrites)
  have := ht.ebx
  rw [ebx] at this
  exact absurd this (by decide)

end Hurlex.Task
