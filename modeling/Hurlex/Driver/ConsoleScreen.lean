import Hurlex.Driver.ConsoleWindow

/-!
# The bounds of the screen

`_flush_console` copies the lines from `current_line` to `buffer_y`, however many they are. After a
write they fit on the screen, but `console_view_up` moves `current_line` away from `buffer_y`.

**`onScreen_iff`**: the stores stay on the screen as long as `console_view_up` keeps the distance.
-/

namespace Hurlex.Console

open Lib

/-- The call of `_flush_console` in the state `p` stays on the screen. -/
structure FlushOnScreen (p : Con) : Prop where
  stores : ∀ st ∈ flushStores p, st.1 < conWidth * conHigh
  cursor_y : (flushConsole p).cursorY < conHigh
  cursor_x : (flushConsole p).cursorX < conWidth

/-- So does the one in the call `op`. -/
def OnScreen (s : Con) (op : Op) : Prop := ∀ p, beforeFlush s op = some p → FlushOnScreen p

/-- `console_view_up` leaves the last line on the screen. -/
def UpInReach (s : Con) (op : Op) : Prop :=
  ∀ k, op = .viewUp k → s.bufferY ≤ s.currentLine - k + (conHigh - 1)

/-- `P` holds at each call of a sequence. -/
def Always (P : Con → Op → Prop) : Con → List Op → Prop
  | _, [] => True
  | s, op :: ops => P s op ∧ ∀ s', exec s op = some s' → Always P s' ops

variable {s p : Con} {t : Terminal Cell} {top : Nat} {op : Op}

/-- The line the screen starts at is one up to the cursor's. -/
structure Near (s : Con) : Prop where
  le : s.currentLine ≤ s.bufferY
  fits : s.bufferY ≤ s.currentLine + (conHigh - 1)

/-- A flush stays on the screen exactly when the lines it copies fit there. -/
theorem Shown.flushOnScreen_iff (h : Shown p t top) (hle : p.currentLine ≤ p.bufferY) :
    FlushOnScreen p ↔ p.bufferY ≤ p.currentLine + (conHigh - 1) := by
  have hw : conWidth = 80 := rfl
  have hh : conHigh = 25 := rfl
  have hb : buffWidth = 80 := rfl
  have hbh : buffHigh = 128 := rfl
  have hx := h.x_lt
  have hy := h.y_le
  have hcur : (Console.flushConsole p).cursorY = p.bufferY - p.currentLine := by
    show (p.bufferY + 1 + 2 ^ 16 - p.currentLine - 1) % 2 ^ 16 = _
    omega
  constructor
  · intro hf
    have := hf.cursor_y
    omega
  · intro hfit
    refine ⟨fun st hst => ?_, by omega, ?_⟩
    · rw [flushStores, hw, hh, List.mem_append, List.mem_map, List.mem_map] at hst
      rw [hw, hh]
      rcases hst with ⟨i, hi, rfl⟩ | ⟨i, hi, rfl⟩
      · have := List.mem_range.1 hi
        dsimp only
        omega
      · have := (List.mem_range'_1.1 hi).2
        dsimp only at this ⊢
        omega
    · show p.bufferX < conWidth
      omega

/-- From a state whose lines fit, only `console_view_up` can leave the screen. -/
theorem Shown.upInReach_iff (h : Shown s t top) (hn : Near s) (op : Op) :
    (OnScreen s op ↔ UpInReach s op) ∧
      (UpInReach s op → ∀ s', Console.exec s op = some s' → Near s') := by
  have hh : conHigh = 25 := rfl
  obtain ⟨p, top', hp, hsh, hwrite⟩ := h.beforeFlush op
  have hstep (s' : Con) (hs' : Console.exec s op = some s') : s' = Console.flushConsole p := by
    rw [exec_eq, hp] at hs'
    exact (Option.some.inj hs').symm
  -- enough: what `_flush_console` starts from
  have key (hle : p.currentLine ≤ p.bufferY)
      (hiff : p.bufferY ≤ p.currentLine + (conHigh - 1) ↔ UpInReach s op) :
      (OnScreen s op ↔ UpInReach s op) ∧
        (UpInReach s op → ∀ s', Console.exec s op = some s' → Near s') := by
    refine ⟨?_, fun hr s' hs' => ?_⟩
    · rw [← hiff, ← hsh.flushOnScreen_iff hle]
      exact ⟨fun ho => ho p hp, fun ho q hq => Option.some.inj (hp.symm.trans hq) ▸ ho⟩
    · rw [hstep s' hs']
      exact ⟨hle, hiff.2 hr⟩
  have hle := hn.le
  have hfits := hn.fits
  cases op with
  | write cstr =>
    have hcl := hwrite rfl
    exact key (by omega) (iff_of_true (by omega) nofun)
  | writeColor cstr back fore =>
    have hcl := hwrite rfl
    exact key (by omega) (iff_of_true (by omega) nofun)
  | viewUp k =>
    obtain rfl : viewUp s k = p := Option.some.inj hp
    have hcl : (viewUp s k).currentLine = s.currentLine - k := by
      unfold viewUp
      split
      · rfl
      · show 0 = s.currentLine - k
        omega
    have hy : (viewUp s k).bufferY = s.bufferY := by
      unfold viewUp
      split
      · rfl
      · rfl
    refine key (by omega) ?_
    rw [hcl, hy]
    exact ⟨fun hr k' hk' => Op.viewUp.inj hk' ▸ hr, fun hr => hr k rfl⟩
  | viewDown k =>
    obtain rfl : viewDown s k = p := Option.some.inj hp
    have hy : (viewDown s k).bufferY = s.bufferY := by
      unfold viewDown
      split
      · rfl
      · rfl
    have hcl : s.currentLine ≤ (viewDown s k).currentLine ∧
        (viewDown s k).currentLine ≤ s.bufferY := by
      unfold viewDown
      split
      · next hlt => exact ⟨Nat.le_add_right .., hlt.le⟩
      · exact ⟨hle, Nat.le_refl _⟩
    exact key (by omega) (iff_of_true (by omega) nofun)

theorem Shown.always_iff : ∀ (ops : List Op) {s : Con} {t : Terminal Cell} {top : Nat},
    Shown s t top → Near s → (Always OnScreen s ops ↔ Always UpInReach s ops)
  | [], _, _, _, _, _ => Iff.rfl
  | op :: ops, s, t, top, h, hn => by
    obtain ⟨hiff, hnear⟩ := h.upInReach_iff hn op
    obtain ⟨s', top', hs', hsh, -⟩ := h.exec op
    have hrest (hr : UpInReach s op) (s'' : Con) (hs'' : Console.exec s op = some s'') :
        Always OnScreen s'' ops ↔ Always UpInReach s'' ops := by
      obtain rfl := Option.some.inj (hs'.symm.trans hs'')
      exact hsh.always_iff ops (hnear hr s' hs')
    constructor
    · rintro ⟨ho, hall⟩
      have hr := hiff.1 ho
      exact ⟨hr, fun s'' hs'' => (hrest hr s'' hs'').1 (hall s'' hs'')⟩
    · rintro ⟨hr, hall⟩
      exact ⟨hiff.2 hr, fun s'' hs'' => (hrest hr s'' hs'').2 (hall s'' hs'')⟩

/-- **When the console stays on the screen**: all of its flushes do so exactly when every
`console_view_up` leaves the last line there. -/
theorem onScreen_iff (s₀ : Con) (ops : List Op) :
    Always OnScreen (consoleClear s₀) ops ↔ Always UpInReach (consoleClear s₀) ops :=
  (consoleClear_shown s₀).always_iff ops ⟨Nat.le_refl _, Nat.zero_le _⟩

/-- The variables of `console.c`, and the screen, all zero. -/
def zeroCon : Con := ⟨fun _ => 0, 0, 0, fun _ => 0, 0, 0, 0, 0, 0⟩

/-- Thirty lines are written, and the view moves up by one. -/
theorem not_onScreen : ¬ ∀ (s₀ : Con) (ops : List Op), Always OnScreen (consoleClear s₀) ops := by
  intro h
  obtain ⟨-, hup⟩ := ((consoleClear_shown zeroCon).always_iff
    [.write (List.replicate 30 0x0A), .viewUp 1] ⟨Nat.le_refl _, Nat.zero_le _⟩).1 (h _ _)
  have hs : (exec (consoleClear zeroCon) (.write (List.replicate 30 0x0A))).map
      (fun s => (s.bufferY, s.currentLine)) = some (30, 6) := by decide +kernel
  obtain ⟨s, hs', he⟩ := Option.map_eq_some_iff.1 hs
  have hreach := (hup s hs').1 1 rfl
  rw [(Prod.mk.inj he).1, (Prod.mk.inj he).2] at hreach
  exact absurd hreach (by decide)

end Hurlex.Console
