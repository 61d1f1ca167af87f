import Hurlex.Driver.Kboard

/-!
# The keyboard queue under interrupts

`kb_getchar` of `driver/kboard.c` (lines 257 to 267) runs with interrupts on, so `keyboard_handler`
(lines 294 to 344) may run between any two of its steps: the test of the indices, the read of the cell
and the store of `kfront`. A `Run` starts at `kb_init` and records its events, the latest first.
Interrupts do not nest: `keyboard_handler` is one step.

* **`run_fifo`**: what was taken out and what is waiting, in this order, is what was put in. What is put
  in is said by the scancodes and the number of bytes waiting (`accepted`), what is taken out by what
  `kb_getchar` returns.

Out of scope: `kb_read` and `getchar`, which stand in `Driver.KboardRead`, the control keys, which stand
in `Driver.KboardControls`, two tasks that read at once, and the port the scancode comes from.
-/

namespace Hurlex.Kboard

open Lib

/-- Where the reader is in `kb_getchar`. -/
inductive Reader where
  | idle
  /-- past the test, with a byte to read -/
  | tested
  /-- with the byte, about to move `kfront` on -/
  | got (ch : Byte)
  deriving DecidableEq

structure Sys where
  dev : KboardDevice
  reader : Reader

inductive Ev where
  /-- `scancode` comes in, and finds the device as it is in `d` -/
  | key (d : KboardDevice) (scancode : Byte)
  | test
  | read
  | advance (ch : Byte)

inductive Step : Sys → Ev → Sys → Prop where
  /-- `keyboard_handler` runs to its end. -/
  | key {s : Sys} (scancode : Byte) : Step s (.key s.dev scancode)
      { s with dev := keyboardHandler s.dev scancode }
  /-- `kb_device.kfront != kb_device.krear`; with an empty queue the call returns 0. -/
  | test {s : Sys} : s.reader = .idle →
      Step s .test { s with reader := if s.dev.kfront ≠ s.dev.krear then .tested else .idle }
  | read {s : Sys} : s.reader = .tested →
      Step s .read { s with reader := .got (s.dev.kbuffer s.dev.kfront) }
  /-- The call returns the byte. -/
  | advance {s : Sys} {ch : Byte} : s.reader = .got ch →
      Step s (.advance ch) ⟨{ s.dev with kfront := bump s.dev.kfront }, .idle⟩

inductive Run : List Ev → Sys → Prop where
  | init (layout : Keymap) : Run [] ⟨kbInit (bss layout), .idle⟩
  | step {es : List Ev} {s s' : Sys} {e : Ev} : Run es s → Step s e s' → Run (e :: es) s'

/-- The byte a scancode adds to the queue: the one it stands for, unless the queue is full. -/
def KboardDevice.accepts (d : KboardDevice) (scancode : Byte) : List Byte :=
  if d.pending.length = kbufferLen - 1 then [] else (d.currLayout.typed scancode).toList

/-- The bytes that were put into the queue. -/
def accepted : List Ev → List Byte
  | [] => []
  | .key d scancode :: es => accepted es ++ d.accepts scancode
  | _ :: es => accepted es

/-- The bytes `kb_getchar` took out of it. -/
def takenOut : List Ev → List Byte
  | [] => []
  | .advance ch :: es => takenOut es ++ [ch]
  | _ :: es => takenOut es

/-- What holds after the events `es`. The reader past its test has a byte, and the byte it read is
still the first. -/
structure Inv (es : List Ev) (s : Sys) : Prop where
  inRange : s.dev.InRange
  fifo : accepted es = takenOut es ++ s.dev.pending
  tested : s.reader = .tested → s.dev.kfront ≠ s.dev.krear
  got : ∀ ch, s.reader = .got ch → s.dev.kfront ≠ s.dev.krear ∧ s.dev.kbuffer s.dev.kfront = ch

variable {es : List Ev} {s s' : Sys} {e : Ev} {ch : Byte}

/-- **What a scancode does to the queue**, and that it leaves the reader's cell alone. -/
theorem pending_keyboardHandler {d : KboardDevice} (h : d.InRange) (scancode : Byte) :
    (keyboardHandler d scancode).InRange ∧
      (keyboardHandler d scancode).pending = d.pending ++ d.accepts scancode ∧
      (keyboardHandler d scancode).kfront = d.kfront ∧
      (d.kfront ≠ d.krear →
        (keyboardHandler d scancode).kfront ≠ (keyboardHandler d scancode).krear ∧
        (keyboardHandler d scancode).kbuffer d.kfront = d.kbuffer d.kfront) := by
  unfold KboardDevice.accepts
  cases ht : d.currLayout.typed scancode with
  | none =>
    obtain ⟨controls, hk⟩ := keyboardHandler_of_none ht
    rw [hk, Option.toList_none, ite_self, List.append_nil]
    exact ⟨⟨h.kfront, h.krear⟩, rfl, rfl, fun hne => ⟨hne, rfl⟩⟩
  | some ch =>
    rw [keyboardHandler_of_some ht]
    by_cases hfull : d.pending.length = kbufferLen - 1
    · rw [enqueue_of_full h hfull, if_pos hfull, List.append_nil]
      exact ⟨h, rfl, rfl, fun hne => ⟨hne, rfl⟩⟩
    · rw [if_neg hfull]
      exact enqueue_of_room h hfull

theorem Inv.key (h : Inv es s) (scancode : Byte) :
    Inv (.key s.dev scancode :: es) { s with dev := keyboardHandler s.dev scancode } := by
  obtain ⟨hin, hpend, hfront, hkeep⟩ := pending_keyboardHandler h.inRange scancode
  refine ⟨hin, ?_, fun ht => (hkeep (h.tested ht)).1, fun c hc => ?_⟩
  · show accepted es ++ s.dev.accepts scancode =
      takenOut es ++ (keyboardHandler s.dev scancode).pending
    rw [hpend, h.fifo, List.append_assoc]
  · obtain ⟨hne, hcell⟩ := h.got c hc
    obtain ⟨h1, h2⟩ := hkeep hne
    refine ⟨h1, ?_⟩
    show (keyboardHandler s.dev scancode).kbuffer (keyboardHandler s.dev scancode).kfront = c
    rw [hfront, h2, hcell]

theorem Inv.advance (h : Inv es s) (hr : s.reader = .got ch) :
    Inv (.advance ch :: es) ⟨{ s.dev with kfront := bump s.dev.kfront }, .idle⟩ := by
  obtain ⟨hne, hcell⟩ := h.got ch hr
  have hpop : s.dev.pending = ch :: Ring.contents kbufferLen s.dev.kbuffer (bump s.dev.kfront)
      s.dev.krear := by
    rw [KboardDevice.pending, Ring.contents_pop h.inRange.kfront h.inRange.krear hne, hcell,
      bump_eq]
  refine ⟨⟨bump_lt _, h.inRange.krear⟩, ?_, Reader.noConfusion, fun _ => Reader.noConfusion⟩
  show accepted es = takenOut es ++ [ch] ++ _
  rw [h.fifo, hpop, List.append_assoc]
  rfl

theorem Inv.step (h : Inv es s) (hs : Step s e s') : Inv (e :: es) s' := by
  cases hs with
  | key scancode => exact h.key scancode
  | test hr =>
    refine ⟨h.inRange, h.fifo, fun ht => ?_, fun c hc => ?_⟩
    · dsimp only at ht
      split at ht
      · next hne => exact hne
      · exact Reader.noConfusion ht
    · dsimp only at hc
      split at hc
      · exact Reader.noConfusion hc
      · exact Reader.noConfusion hc
  | read hr =>
    refine ⟨h.inRange, h.fifo, Reader.noConfusion, fun c hc => ⟨h.tested hr, Reader.got.inj hc⟩⟩
  | advance hr => exact h.advance hr

theorem Run.inv (h : Run es s) : Inv es s := by
  induction h with
  | init layout =>
    have hpos : 0 < kbufferLen := by decide
    exact ⟨⟨hpos, hpos⟩, Ring.contents_self.symm, Reader.noConfusion,
      fun _ => Reader.noConfusion⟩
  | step _ hs ih => exact ih.step hs

/-! ## Without interrupts -/

/-- `kb_getchar` is its steps: none but the test with an empty queue, where it returns 0, else all
three, where it returns the byte that is taken out. -/
def GetcharIsSteps (d : KboardDevice) : Prop :=
  Step ⟨d, .idle⟩ .test ⟨(kbGetchar d).1, .idle⟩ ∧ (kbGetchar d).2 = 0 ∨
    ∃ s₁ s₂, Step ⟨d, .idle⟩ .test s₁ ∧ Step s₁ .read s₂ ∧
      Step s₂ (.advance (kbGetchar d).2) ⟨(kbGetchar d).1, .idle⟩

theorem kbGetchar_steps (d : KboardDevice) : GetcharIsSteps d := by
  have htest : Step ⟨d, .idle⟩ .test
      ⟨d, if d.kfront ≠ d.krear then .tested else .idle⟩ := .test rfl
  unfold GetcharIsSteps kbGetchar
  by_cases hne : d.kfront ≠ d.krear
  · rw [if_pos hne] at htest ⊢
    exact .inr ⟨_, _, htest, .read rfl, .advance rfl⟩
  · rw [if_neg hne] at htest ⊢
    exact .inl ⟨htest, rfl⟩

/-! ## The queue -/

/-- **The queue is first in, first out**, whatever the reader is in the middle of. A scancode that
stands for a byte adds it, unless exactly `KBUFFER_LEN - 1` bytes are waiting; any other scancode
leaves the queue as it is. -/
theorem run_fifo (h : Run es s) :
    s.dev.kfront < kbufferLen ∧ s.dev.krear < kbufferLen ∧
      accepted es = takenOut es ++ s.dev.pending ∧ GetcharIsSteps s.dev ∧
      ∀ scancode,
        (∀ ch, s.dev.currLayout.typed scancode = some ch →
          (keyboardHandler s.dev scancode).pending =
            if s.dev.pending.length = kbufferLen - 1 then s.dev.pending
            else s.dev.pending ++ [ch]) ∧
        (s.dev.currLayout.typed scancode = none →
          (keyboardHandler s.dev scancode).pending = s.dev.pending) := by
  have hi := h.inv
  refine ⟨hi.inRange.kfront, hi.inRange.krear, hi.fifo, kbGetchar_steps s.dev,
    fun scancode => ⟨fun ch ht => ?_, fun ht => ?_⟩⟩
  · rw [(pending_keyboardHandler hi.inRange scancode).2.1, KboardDevice.accepts, ht]
    split
    · exact List.append_nil _
    · rfl
  · rw [(pending_keyboardHandler hi.inRange scancode).2.1, KboardDevice.accepts, ht,
      Option.toList_none, ite_self, List.append_nil]

/-- `a` is pressed, `kb_getchar` tests and reads, `b` is pressed, and `kb_getchar` goes on. -/
theorem run_fifo_two : ∃ (es : List Ev) (s : Sys), accepted es = [97, 98] ∧ takenOut es = [97] ∧
    accepted es = takenOut es ++ s.dev.pending := by
  have h1 := (Run.init usKeymap).step (.key 0x1E)
  have h2 := h1.step (.test rfl)
  have h3 := h2.step (.read rfl)
  have h4 := h3.step (.key 0x30)
  have h5 := h4.step (.advance rfl)
  exact ⟨_, _, rfl, rfl, (run_fifo h5).2.2.1⟩

end Hurlex.Kboard
