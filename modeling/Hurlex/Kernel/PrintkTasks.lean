import Hurlex.Driver.ConsoleWindow
import Hurlex.Kernel.Printk
import Hurlex.Task.Progress

/-!
# `printk` under preemption

`printk` formats into a static buffer with interrupts on, and `console_write` prints it with interrupts
off. So the timer may come between the two, and with it another task and its `printk`. A `Run` is one
of `Hurlex.Task` in which the current task may also take one of these two steps; it records its events,
the latest first.

`buff` is the bytes from the start of the array on; text that does not fit overruns what is behind it.

**`run_unmixed`**: as long as nobody formats while another task has yet to write, every task prints
its own text.
**`write_output`**: what is printed is the text that was formatted last, by whomever.
-/

namespace Hurlex.Printing

open Printk (Byte Word vsprintf)
open Console (Con consoleClear consoleWrite Shown)
open Hurlex.Task (Addr Kernel)

/-- The arguments of a `printk`: the words behind `format`, and the strings they may point at. -/
structure Call where
  args : Nat → Word
  strAt : Word → List Byte
  format : List Byte

def Call.text (c : Call) : Option (List Byte) := vsprintf c.args c.strAt c.format

/-- The string in a piece of memory: up to the NUL. -/
def cstr (mem : List Byte) : List Byte := mem.takeWhile (· ≠ 0)

/-- `i = vsprintf(buff, format, args); buff[i] = '\0';` for the text `vsprintf` writes. -/
def store (buff text : List Byte) : List Byte := text ++ 0 :: buff.drop (text.length + 1)

/-- The static variables of `printk` and the console's. -/
structure Io where
  buff : List Byte
  con : Con

/-- `printk`, up to the call of `console_write`. -/
def formatInto (io : Io) (c : Call) : Option Io := do
  return { io with buff := store io.buff (← c.text) }

/-- The call of `console_write`. -/
def writeOut (io : Io) : Option Io := do
  return { io with con := ← consoleWrite io.con io.buff }

/-- `printk`. -/
def printk (io : Io) (c : Call) : Option Io := do
  writeOut (← formatInto io c)

/-! ## Tasks -/

structure Sys extends Task.Sys, Io where
  /-- the `printk`s that have formatted their text and not written it yet -/
  call : Addr → Option Call

/-- The current task goes on in its `printk`, or leaves it. -/
def Sys.proceed (s : Sys) (io : Io) (c : Option Call) : Sys :=
  { s with toIo := io, call := Function.update s.call s.current c }

inductive Ev where
  | task (e : Task.Ev)
  | format (t : Addr) (c : Call)
  | write (t : Addr) (c : Call) (out : List Byte)

/-- A task in a `printk` goes on with it, but the timer may come. -/
inductive Step : Sys → Ev → Sys → Prop where
  | task {s : Sys} {e : Task.Ev} {s' : Task.Sys} : Task.Step s.toSys e s' →
      s.call s.current = none ∨ e = .tick → Step s (.task e) { s with toSys := s' }
  | format {s : Sys} {c : Call} {io : Io} : s.pc s.current = .user → s.call s.current = none →
      formatInto s.toIo c = some io →
      Step s (.format s.current c) (s.proceed io (some c))
  | write {s : Sys} {c : Call} {io : Io} : s.call s.current = some c →
      writeOut s.toIo = some io →
      Step s (.write s.current c (cstr s.buff)) (s.proceed io none)

/-- Nobody is in a `printk` yet, and the buffer is in the bss. -/
def start (s : Task.Sys) (con : Con) : Sys where
  toSys := s
  toIo := ⟨List.replicate 10240 0, consoleClear con⟩
  call _ := none

inductive Run : List Ev → Sys → Prop where
  | start (k : Kernel) (idleTask : Addr) (con : Con) : Run [] (start (Task.start k idleTask) con)
  | step {es : List Ev} {s s' : Sys} {e : Ev} : Run es s → Step s e s' → Run (e :: es) s'

/-- Every `console_write` of a `printk` put out the string this `printk` formatted. -/
def Unmixed (es : List Ev) : Prop :=
  ∀ t c out, .write t c out ∈ es → c.text.map cstr = some out

/-- The task has formatted a text that it has not written yet. -/
def Busy (t : Addr) : List Ev → Prop
  | [] => False
  | .format u _ :: es => u = t ∨ Busy t es
  | .write u _ _ :: es => u ≠ t ∧ Busy t es
  | .task _ :: es => Busy t es

/-- No task formats a text while another one is busy. -/
def Undisturbed : List Ev → Prop
  | [] => True
  | .format t _ :: es => (∀ u, u ≠ t → ¬ Busy u es) ∧ Undisturbed es
  | _ :: es => Undisturbed es

/-- The text that was formatted last. -/
def lastFormatted : List Ev → Option Call
  | [] => none
  | .format _ c :: _ => some c
  | _ :: es => lastFormatted es

/-! ## The buffer -/

variable {es : List Ev} {s s' : Sys} {e : Ev} {t u : Addr} {c : Call} {io io' : Io} {out : List Byte}

theorem cstr_append_nul (rest : List Byte) : ∀ text : List Byte, cstr (text ++ 0 :: rest) = cstr text
  | [] => rfl
  | b :: text => by
    have ih := cstr_append_nul rest text
    unfold cstr at ih ⊢
    rw [List.cons_append, List.takeWhile_cons, List.takeWhile_cons, ih]

/-- What was in the buffer before does not show. -/
theorem cstr_store (buff text : List Byte) : cstr (store buff text) = cstr text :=
  cstr_append_nul _ text

theorem formatInto_eq_some (h : formatInto io c = some io') :
    c.text.map cstr = some (cstr io'.buff) ∧ io'.con = io.con := by
  obtain ⟨text, htext, hio⟩ := Option.bind_eq_some_iff.1 h
  obtain rfl := Option.some.inj hio
  rw [htext, Option.map_some, cstr_store]
  exact ⟨rfl, rfl⟩

theorem writeOut_eq_some (h : writeOut io = some io') :
    io'.buff = io.buff ∧ consoleWrite io.con io.buff = some io'.con := by
  obtain ⟨con, hcon, hio⟩ := Option.bind_eq_some_iff.1 h
  obtain rfl := Option.some.inj hio
  exact ⟨rfl, hcon⟩

/-- A `printk` that nothing interrupts prints its own text. -/
theorem printk_alone (h : printk io c = some io') :
    ∃ text, c.text = some text ∧ cstr io'.buff = cstr text ∧
      consoleWrite io.con io'.buff = some io'.con := by
  obtain ⟨mid, hmid, hout⟩ := Option.bind_eq_some_iff.1 h
  obtain ⟨hbuff, hcon⟩ := formatInto_eq_some hmid
  obtain ⟨hsame, hwrite⟩ := writeOut_eq_some hout
  obtain ⟨text, htext, hcstr⟩ := Option.map_eq_some_iff.1 hbuff
  refine ⟨text, htext, ?_, ?_⟩
  · rw [hsame, hcstr]
  · rw [hsame, ← hcon]
    exact hwrite

/-! ## Runs -/

theorem proceed_call_self (s : Sys) (io : Io) (c : Option Call) :
    (s.proceed io c).call s.current = c := Function.update_self ..

theorem proceed_call_of_ne (s : Sys) (io : Io) (c : Option Call) (h : t ≠ s.current) :
    (s.proceed io c).call t = s.call t := Function.update_of_ne h ..

/-- The buffer holds the text that was formatted last. -/
theorem Run.buff_eq (h : Run es s) :
    ∀ c, lastFormatted es = some c → c.text.map cstr = some (cstr s.buff) := by
  induction h with
  | start => exact nofun
  | step _ hs ih =>
    cases hs with
    | task => exact ih
    | format _ _ hio =>
      rintro c ⟨⟩
      exact (formatInto_eq_some hio).1
    | write _ hio =>
      rw [← (writeOut_eq_some hio).1] at ih
      exact ih

theorem Run.busy_iff (h : Run es s) (t : Addr) : Busy t es ↔ s.call t ≠ none := by
  induction h with
  | start => exact iff_of_false id fun h => h rfl
  | @step es s s' e _ hs ih =>
    cases hs with
    | task => exact ih
    | format =>
      by_cases ht : t = s.current
      · subst ht
        rw [proceed_call_self]
        exact iff_of_true (.inl rfl) nofun
      · rw [proceed_call_of_ne s _ _ ht, ← ih]
        exact or_iff_right (Ne.symm ht)
    | write =>
      by_cases ht : t = s.current
      · subst ht
        rw [proceed_call_self]
        exact iff_of_false (fun h => h.1 rfl) fun h => h rfl
      · rw [proceed_call_of_ne s _ _ ht, ← ih]
        exact and_iff_right (Ne.symm ht)

/-- Undisturbed, a busy task is the only one, and the buffer is its own. -/
theorem Run.busy_alone (h : Run es s) (hu : Undisturbed es) :
    ∀ t c, s.call t = some c → lastFormatted es = some c ∧ ∀ u, Busy u es → u = t := by
  induction h with
  | start => exact nofun
  | @step es s s' e hr hs ih =>
    intro t c hc
    cases hs with
    | task => exact ih hu t c hc
    | format =>
      obtain ⟨hothers, -⟩ := hu
      by_cases ht : t = s.current
      · subst ht
        rw [proceed_call_self] at hc
        refine ⟨hc, fun u hb => ?_⟩
        by_contra hne
        exact hb.elim (fun h => hne h.symm) (hothers u hne)
      · rw [proceed_call_of_ne s _ _ ht] at hc
        exact absurd ((hr.busy_iff t).2 (by rw [hc]; exact nofun)) (hothers t ht)
    | write =>
      by_cases ht : t = s.current
      · subst ht
        rw [proceed_call_self] at hc
        cases hc
      · rw [proceed_call_of_ne s _ _ ht] at hc
        obtain ⟨hlast, honly⟩ := ih hu t c hc
        exact ⟨hlast, fun u hb => honly u hb.2⟩

/-- **What a `console_write` puts out** is the text that was formatted last. -/
theorem write_output (h : Run es s) (hs : Step s (.write t c out) s') {last : Call}
    (hlast : lastFormatted es = some last) : last.text.map cstr = some out := by
  cases hs with
  | write => exact h.buff_eq last hlast

/-- **Messages are not mixed up** as long as no task formats while another one is busy. -/
theorem run_unmixed (h : Run es s) (hu : Undisturbed es) : Unmixed es := by
  induction h with
  | start => exact fun _ _ _ h => absurd h List.not_mem_nil
  | @step es s s' e hr hs ih =>
    intro t c out hm
    cases hs with
    | task => exact ih hu t c out ((List.mem_cons.1 hm).resolve_left nofun)
    | format => exact ih hu.2 t c out ((List.mem_cons.1 hm).resolve_left nofun)
    | write hc =>
      rcases List.mem_cons.1 hm with heq | hm
      · cases heq
        exact hr.buff_eq _ (hr.busy_alone hu _ _ hc).1
      · exact ih hu t c out hm

/-- The condition is needed: when a task writes although another one has formatted since, its own text
comes out only if the two texts are the same. -/
theorem unmixed_write_iff (h : Run es s) (hs : Step s (.write t c out) s') {last : Call}
    (hlast : lastFormatted es = some last) :
    Unmixed (.write t c out :: es) ↔ Unmixed es ∧ c.text.map cstr = last.text.map cstr := by
  rw [write_output h hs hlast]
  constructor
  · intro hu
    exact ⟨fun u d o hm => hu u d o (List.mem_cons_of_mem _ hm), hu t c out List.mem_cons_self⟩
  · rintro ⟨hu, hown⟩ u d o hm
    rcases List.mem_cons.1 hm with heq | hm
    · cases heq
      exact hown
    · exact hu u d o hm

/-- The console shows a terminal throughout. -/
theorem Run.shown (h : Run es s) : ∃ term top, Shown s.con term top := by
  induction h with
  | start _ _ con => exact ⟨_, _, Console.consoleClear_shown con⟩
  | step _ hs ih =>
    obtain ⟨term, top, hsh⟩ := ih
    cases hs with
    | task => exact ⟨term, top, hsh⟩
    | format _ _ hio =>
      rw [← (formatInto_eq_some hio).2] at hsh
      exact ⟨term, top, hsh⟩
    | write _ hio =>
      obtain ⟨con, top', hcon, hsh', -⟩ := hsh.exec (.write _)
      have heq := Option.some.inj (hcon.symm.trans (writeOut_eq_some hio).2)
      exact ⟨_, top', heq ▸ hsh'⟩

/-- A `printk` that has formatted its text can write it. -/
theorem Run.can_write (h : Run es s) (hc : s.call s.current = some c) :
    ∃ s', Step s (.write s.current c (cstr s.buff)) s' := by
  obtain ⟨term, top, hsh⟩ := h.shown
  obtain ⟨con, -, hcon, -⟩ := hsh.exec (.write s.buff)
  have hio : writeOut s.toIo = some { s.toIo with con } := by
    rw [writeOut]
    exact Option.bind_eq_some_iff.2 ⟨con, hcon, rfl⟩
  exact ⟨_, .write hc hio⟩

/-! ## Two tasks -/

/-- `printk` of one letter. -/
def letter (b : Byte) : Call := ⟨fun _ => 0, fun _ => [], [b]⟩

theorem lift_run {es : List Task.Ev} {s : Task.Sys} (h : Task.Run es s) (con : Con) :
    Run (es.map .task) (start s con) := by
  induction h with
  | start k idleTask => exact .start k idleTask con
  | step _ hs ih => exact ih.step (.task hs (.inl rfl))

/-- Idle and the task it forked. -/
def two : Task.Sys := (Task.start Task.bare 0).forked 1

/-- They run in turns. -/
theorem two_run : Task.Run [.wake 1, .commit 1, .alloc 1, .check] two ∧
    Task.Step two .tick (two.ticked 1) ∧
      Task.Step (two.ticked 1) .tick ((two.ticked 1).ticked 0) := by
  obtain ⟨h1, i1⟩ : Task.Run [.wake 1, .commit 1, .alloc 1, .check] two ∧ Task.Inv two [1, 0] :=
    Task.fork_run (.start Task.bare 0) (Task.start_inv Task.bare 0) rfl (by decide) (by decide)
  have hchild : two.runnable 1 = true := decide_eq_true Task.forked_child_state
  have hs1 : Task.Step two .tick (two.ticked 1) :=
    Task.tick_step i1 (Task.nextRound_last (c := 0) [] i1.list.nodup rfl hchild)
  have i2 := i1.step hs1
  exact ⟨h1, hs1, Task.tick_step i2
    (Task.nextRound_next (c := 1) [] i2.list.nodup rfl i2.list.runnable_idle)⟩

theorem formatInto_letter {b : Byte} (hb : (letter b).text = some [b]) (io : Io) :
    formatInto io (letter b) = some { io with buff := store io.buff [b] } :=
  Option.bind_eq_some_iff.2 ⟨_, hb, rfl⟩

/-- The first task has formatted `A` when the timer comes. -/
theorem format_run (con : Con) : ∃ s, Run (.task .tick :: .format 0 (letter 65) ::
    [.task (.wake 1), .task (.commit 1), .task (.alloc 1), .task .check]) s ∧
      s.toSys = two.ticked 1 ∧ s.call 0 = some (letter 65) ∧ s.call 1 = none := by
  have h := lift_run two_run.1 con
  obtain ⟨io, hfmt⟩ : ∃ io, formatInto (start two con).toIo (letter 65) = some io :=
    ⟨_, formatInto_letter rfl _⟩
  have h1 := h.step (.format rfl rfl hfmt)
  have hcur : (1 : Addr) ≠ two.current := by decide
  exact ⟨_, h1.step (.task two_run.2.1 (.inr rfl)), rfl,
    proceed_call_self (start two con) io _,
    proceed_call_of_ne (start two con) io (some (letter 65)) hcur⟩

/-- The timer comes back: the task writes what was formatted last. -/
theorem write_run (h : Run es s) (hs : s.toSys = two.ticked 1) (hc : s.call 0 = some c)
    {b : Byte} (hb : cstr [b] = [b]) (hlast : lastFormatted es = some (letter b))
    (htext : (letter b).text = some [b]) :
    ∃ s', Run (.write 0 c [b] :: .task .tick :: es) s' := by
  have htick : Step s (.task .tick) { s with toSys := (two.ticked 1).ticked 0 } :=
    .task (hs ▸ two_run.2.2) (.inr rfl)
  have h1 := h.step htick
  obtain ⟨s', hw⟩ := h1.can_write hc
  have hout : (letter b).text.map cstr = some (cstr s.buff) := h1.buff_eq _ hlast
  rw [htext, Option.map_some, hb] at hout
  rw [← Option.some.inj hout] at hw
  exact ⟨s', h1.step hw⟩

/-- The timer comes and goes, and the task writes its letter. -/
theorem run_unmixed_two : ∃ es s, Run es s ∧ .write 0 (letter 65) [65] ∈ es ∧
    Undisturbed es ∧ Unmixed es := by
  obtain ⟨s, h, hs, hc, -⟩ := format_run ⟨fun _ => 0, 0, 0, fun _ => 0, 0, 0, 0, 0, 0⟩
  obtain ⟨s', h'⟩ := write_run h hs hc rfl rfl rfl
  have hu : Undisturbed (.write 0 (letter 65) [65] :: .task .tick :: .task .tick ::
      .format 0 (letter 65) :: [.task (.wake 1), .task (.commit 1), .task (.alloc 1),
        .task .check]) := ⟨fun _ _ => id, trivial⟩
  exact ⟨_, s', h', List.mem_cons_self, hu, run_unmixed h' hu⟩

/-- The other task formats `B` in between: the first one prints it. -/
theorem not_unmixed : ¬ ∀ (es : List Ev) (s : Sys), Run es s → Unmixed es := by
  intro hall
  obtain ⟨s, h, hs, hc, hnone⟩ := format_run ⟨fun _ => 0, 0, 0, fun _ => 0, 0, 0, 0, 0, 0⟩
  have hcur : s.current = 1 := congrArg (·.current) hs
  have hpc : s.pc s.current = .user := by
    rw [hs]
    rfl
  obtain ⟨io, hfmt⟩ : ∃ io, formatInto s.toIo (letter 66) = some io :=
    ⟨_, formatInto_letter rfl _⟩
  have h1 := h.step (.format hpc (hcur ▸ hnone) hfmt)
  have hne : (0 : Addr) ≠ s.current := by
    rw [hcur]
    decide
  have hc0 := (proceed_call_of_ne s io (some (letter 66)) hne).trans hc
  obtain ⟨s', h'⟩ := write_run h1 hs hc0 rfl rfl rfl
  have hmixed := hall _ s' h' 0 (letter 65) [66] List.mem_cons_self
  exact absurd hmixed (by decide)

end Hurlex.Printing
