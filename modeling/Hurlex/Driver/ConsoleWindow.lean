import Hurlex.Driver.Console
import Hurlex.Lib.Terminal

/-!
# The console is a window on an endless terminal

`Shown s t top`: `video_buffer` shows the rows of the terminal `t` from `top` on, and the cursors
agree. Characters keep it so, `scroll_buffer` by moving the window down.

**`console_window`**: this is so after any sequence of calls, and right after a write the screen
shows the last rows.
-/

namespace Hurlex.Console

open Lib

/-- What a character asks of the terminal. -/
def charAct (c : Byte) (attr : Cell) : Terminal.Act Cell :=
  if c = 0x08 then .back
  else if c = 0x09 then .tab
  else if c = 0x0D then .home
  else if c = 0x0A then .feed
  else if BitVec.sle 0x20 c then .put (c.signExtend 16 ||| attr)
  else .nothing

/-- What a string asks of it, up to the NUL. -/
def strActs (cstr : List Byte) (attr : Cell) : List (Terminal.Act Cell) :=
  (cstr.takeWhile (· ≠ 0)).map fun c => charAct c attr

def Op.acts : Op → List (Terminal.Act Cell)
  | .write cstr => strActs cstr (attributeOf rcBlack rcWhite)
  | .writeColor cstr back fore => strActs cstr (attributeOf back fore)
  | .viewUp _ | .viewDown _ => []

/-- `video_buffer` by rows. -/
def grid (s : Con) (i j : Nat) : Cell := s.videoBuffer (i * buffWidth + j)

/-- The rows of `t` from `top` on are in the buffer, and the cursor is where `t`'s is. -/
structure Tracks (s : Con) (t : Terminal Cell) (top : Nat) : Prop where
  x : t.x = s.bufferX
  y : t.y = top + s.bufferY
  rows : Terminal.Window buffWidth buffHigh (grid s) t top

/-- Between two characters. -/
structure Shown (s : Con) (t : Terminal Cell) (top : Nat) : Prop extends Tracks s t top where
  fresh : t.Fresh blank
  x_lt : s.bufferX < buffWidth
  y_le : s.bufferY ≤ buffHigh - 2

variable {s : Con} {t : Terminal Cell} {top : Nat} {c : Byte} {attr : Cell} {a : Terminal.Act Cell}

/-! ## A character -/

theorem storeBuffer_of_lt {i : Nat} (h : i < buffWidth * buffHigh) (c : Cell) :
    storeBuffer s i c = some { s with videoBuffer := Function.update s.videoBuffer i c } := if_pos h

/-- A store into the row and column of the cursor. -/
theorem grid_update {i j : Nat} (hj : j < buffWidth) (hx : s.bufferX < buffWidth) (w : Cell) :
    Function.update s.videoBuffer (s.bufferY * buffWidth + s.bufferX) w (i * buffWidth + j) =
      Terminal.setCell (grid s) s.bufferY s.bufferX w i j := by
  have hw : buffWidth = 80 := rfl
  rw [Terminal.setCell_apply, Function.update_apply]
  have hiff : i * buffWidth + j = s.bufferY * buffWidth + s.bufferX ↔
      i = s.bufferY ∧ j = s.bufferX := by
    rw [hw] at hj hx ⊢
    omega
  simp only [hiff]
  rfl

/-- **A character does in the buffer what it does on the terminal.** The cursor may be left behind
the end of its line, or in the line that is about to be scrolled away. -/
theorem Shown.putChar (h : Shown s t top) (c : Byte) (attr : Cell) :
    ∃ s', putChar s c attr = some s' ∧ Tracks s' (t.move (charAct c attr)) top ∧
      s'.bufferX ≤ buffWidth ∧ s'.bufferY < buffHigh ∧
      (s'.bufferX = buffWidth → s'.bufferY ≤ buffHigh - 2) := by
  have hw : buffWidth = 80 := rfl
  have hh : buffHigh = 128 := rfl
  have hx := h.x_lt
  have hy := h.y_le
  -- the cursor stays where it is
  have stays : Tracks s (t.move .nothing) top := h.toTracks
  have hyy : s.bufferY < buffHigh := by omega
  unfold Console.putChar charAct
  by_cases h8 : c = 0x08
  · rw [if_pos h8]
    by_cases h0 : s.bufferX ≠ 0
    · rw [if_pos ⟨h8, h0⟩]
      exact ⟨_, rfl, ⟨congrArg (· - 1) h.x, h.y, h.rows⟩, (Nat.sub_le ..).trans hx.le, hyy,
        fun _ => hy⟩
    · rw [if_neg fun hc => h0 hc.2, h8, if_neg (by decide), if_neg (by decide),
        if_neg (by decide), if_neg (by decide)]
      have hx0 : t.x = 0 := h.x.trans (not_not.1 h0)
      refine ⟨s, rfl, ⟨?_, h.y, h.rows⟩, hx.le, hyy, fun _ => hy⟩
      show t.x - 1 = s.bufferX
      rw [← h.x, hx0]
  · rw [if_neg fun hc => h8 hc.1, if_neg h8]
    by_cases h9 : c = 0x09
    · rw [if_pos h9, if_pos h9]
      refine ⟨_, rfl, ⟨?_, h.y, h.rows⟩, ?_, hyy, fun _ => hy⟩
      · show (t.x + 8) / 8 * 8 = (s.bufferX + 8) / 8 * 8
        rw [h.x]
      · show (s.bufferX + 8) / 8 * 8 ≤ buffWidth
        omega
    rw [if_neg h9, if_neg h9]
    by_cases hD : c = 0x0D
    · rw [if_pos hD, if_pos hD]
      exact ⟨_, rfl, ⟨rfl, h.y, h.rows⟩, Nat.zero_le _, hyy, fun _ => hy⟩
    rw [if_neg hD, if_neg hD]
    by_cases hA : c = 0x0A
    · rw [if_pos hA, if_pos hA]
      refine ⟨_, rfl, ⟨rfl, congrArg (· + 1) h.y, h.rows⟩, Nat.zero_le _, ?_, nofun⟩
      show s.bufferY + 1 < buffHigh
      omega
    rw [if_neg hA, if_neg hA]
    by_cases hp : BitVec.sle 0x20 c
    · rw [if_pos hp, if_pos hp, storeBuffer_of_lt (by rw [hw, hh]; omega)]
      refine ⟨_, rfl, ⟨congrArg (· + 1) h.x, h.y, fun i hi j hj => ?_⟩, hx, hyy, fun _ => hy⟩
      have hput := h.rows.put (c := c.signExtend 16 ||| attr) h.y i hi j hj
      rw [h.x, ← grid_update hj hx] at hput
      exact hput
    · rw [if_neg hp, if_neg hp]
      exact ⟨s, rfl, stays, hx.le, hyy, fun _ => hy⟩

theorem Tracks.wrapLine (h : Tracks s t top) : Tracks (wrapLine s) (t.wrap buffWidth) top := by
  unfold Console.wrapLine Terminal.wrap
  rw [h.x]
  split
  · exact ⟨rfl, congrArg (· + 1) h.y, h.rows⟩
  · exact h

/-! ## Scrolling -/

theorem copyUp_eq (s : Con) : ∀ {n : Nat}, n ≤ (buffHigh - 1) * buffWidth →
    copyUp s n = some { s with
      videoBuffer := fun i => if i < n then s.videoBuffer (i + buffWidth) else s.videoBuffer i }
  | 0, _ => rfl
  | n + 1, hn => by
    have hb : (buffHigh - 1) * buffWidth = 10160 := rfl
    have hs : buffWidth * buffHigh = 10240 := rfl
    rw [copyUp, copyUp_eq s (by omega), Option.bind_eq_bind, Option.bind_some,
      storeBuffer_of_lt (by omega)]
    refine congrArg (fun b => some { s with videoBuffer := b }) (funext fun i => ?_)
    dsimp only
    rw [Function.update_apply, if_neg (by omega : ¬ n + buffWidth < n)]
    by_cases hi : i = n
    · rw [if_pos hi, if_pos (by omega), hi]
    · rw [if_neg hi]
      have hiff : i < n ↔ i < n + 1 := by omega
      simp only [hiff]

theorem clearLast_eq (s : Con) : ∀ {n : Nat}, n ≤ buffWidth →
    clearLast s n = some { s with
      videoBuffer := fun i =>
        if (buffHigh - 1) * buffWidth ≤ i ∧ i < (buffHigh - 1) * buffWidth + n then blank
        else s.videoBuffer i }
  | 0, _ => by
    have hnone (i : Nat) : ¬ ((buffHigh - 1) * buffWidth ≤ i ∧
      i < (buffHigh - 1) * buffWidth + 0) := by omega
    simp only [clearLast, if_neg (hnone _)]
  | n + 1, hn => by
    have hb : (buffHigh - 1) * buffWidth = 10160 := rfl
    have hs : buffWidth * buffHigh = 10240 := rfl
    have hw : buffWidth = 80 := rfl
    rw [clearLast, clearLast_eq s (by omega), Option.bind_eq_bind, Option.bind_some,
      storeBuffer_of_lt (by omega)]
    refine congrArg (fun b => some { s with videoBuffer := b }) (funext fun i => ?_)
    rw [Function.update_apply]
    by_cases hi : i = (buffHigh - 1) * buffWidth + n
    · rw [if_pos hi, if_pos (by omega)]
    · rw [if_neg hi]
      have hiff : ((buffHigh - 1) * buffWidth ≤ i ∧ i < (buffHigh - 1) * buffWidth + n) ↔
          ((buffHigh - 1) * buffWidth ≤ i ∧ i < (buffHigh - 1) * buffWidth + (n + 1)) := by omega
      simp only [hiff]

/-- **Scrolling moves the window down**, and the stores stay inside the buffer. -/
theorem Tracks.scrollBuffer (h : Tracks s t top) (hf : t.Fresh blank)
    (hx : s.bufferX < buffWidth) (hy : s.bufferY < buffHigh) :
    ∃ s' top', scrollBuffer s = some s' ∧ Shown s' t top' := by
  have hh : buffHigh = 127 + 1 := rfl
  have hw : buffWidth = 80 := rfl
  have hb : (buffHigh - 1) * buffWidth = 10160 := rfl
  unfold Console.scrollBuffer
  by_cases hlast : s.bufferY = buffHigh - 1
  · rw [if_pos hlast, copyUp_eq s (Nat.le_refl _), Option.bind_eq_bind, Option.bind_some,
      clearLast_eq _ (Nat.le_refl _)]
    refine ⟨_, top + 1, rfl, ⟨h.x, ?_, ?_⟩, hf, hx, ?_⟩
    · show t.y = top + 1 + (s.bufferY - 1)
      have := h.y
      omega
    · refine Terminal.Window.scroll h.rows hf (by have := h.y; omega) (fun i hi j hj => ?_)
        fun j hj => ?_
      · simp only [grid]
        rw [hb, hw, if_neg (by omega), if_pos (by omega), Nat.add_mul, Nat.add_right_comm]
      · simp only [grid]
        rw [hb, hw, if_pos (by omega)]
    · show s.bufferY - 1 ≤ buffHigh - 2
      omega
  · rw [if_neg hlast]
    exact ⟨s, top, rfl, h, hf, hx, by omega⟩

theorem Shown.consolePutcColor (h : Shown s t top) (c back fore : Byte) :
    ∃ s' top', consolePutcColor s c back fore = some s' ∧
      Shown s' (t.act buffWidth (charAct c (attributeOf back fore))) top' := by
  obtain ⟨s₁, h₁, htr, hx, hy, hxy⟩ := h.putChar c (attributeOf back fore)
  have hh : buffHigh = 128 := rfl
  have hwrap : (wrapLine s₁).bufferX < buffWidth ∧ (wrapLine s₁).bufferY < buffHigh := by
    unfold wrapLine
    split
    · next he =>
      have := hxy he
      refine ⟨show 0 < 80 by decide, ?_⟩
      show s₁.bufferY + 1 < buffHigh
      omega
    · next hne => exact ⟨by omega, hy⟩
  obtain ⟨s₂, top₂, h₂, hs⟩ := htr.wrapLine.scrollBuffer h.fresh.act hwrap.1 hwrap.2
  refine ⟨s₂, top₂, ?_, hs⟩
  rw [Console.consolePutcColor, h₁]
  exact h₂

/-! ## Strings -/

theorem Shown.putAll (back fore : Byte) : ∀ (cstr : List Byte) {s : Con} {t : Terminal Cell}
    {top : Nat}, Shown s t top → ∃ s' top', putAll s cstr back fore = some s' ∧
      Shown s' (t.run buffWidth (strActs cstr (attributeOf back fore))) top'
  | [], s, t, top, h => ⟨s, top, rfl, h⟩
  | c :: cstr, s, t, top, h => by
    by_cases hc : c = 0
    · have hstop : strActs (c :: cstr) (attributeOf back fore) = [] := by simp [strActs, hc]
      rw [Console.putAll, if_pos hc, hstop]
      exact ⟨s, top, rfl, h⟩
    · obtain ⟨s₁, top₁, h₁, hs⟩ := h.consolePutcColor c back fore
      obtain ⟨s₂, top₂, h₂, hs'⟩ := hs.putAll back fore cstr
      have hgo : strActs (c :: cstr) (attributeOf back fore) =
          charAct c (attributeOf back fore) :: strActs cstr (attributeOf back fore) := by
        rw [strActs, List.takeWhile_cons, if_pos (decide_eq_true hc), List.map_cons, strActs]
      rw [Console.putAll, if_neg hc, h₁, hgo, Terminal.run_cons]
      exact ⟨s₂, top₂, h₂, hs'⟩

/-! ## The screen -/

theorem storeAll_append (m : Nat → Cell) (xs ys : List (Nat × Cell)) :
    storeAll m (xs ++ ys) = storeAll (storeAll m xs) ys := List.foldl_append ..

/-- Stores into consecutive cells. -/
theorem storeAll_range' (m : Nat → Cell) (f : Nat → Cell) (b : Nat) : ∀ n : Nat,
    storeAll m ((List.range' b n).map fun i => (i, f i)) =
      fun i => if b ≤ i ∧ i < b + n then f i else m i
  | 0 => by
    funext i
    rw [if_neg (by omega)]
    rfl
  | n + 1 => by
    rw [List.range'_1_concat, List.map_append, storeAll_append, storeAll_range' m f b n]
    funext i
    simp only [storeAll, List.map_cons, List.map_nil, List.foldl_cons, List.foldl_nil,
      Function.update_apply]
    by_cases hi : i = b + n
    · rw [if_pos hi, if_pos (by omega), hi]
    · rw [if_neg hi]
      have hiff : (b ≤ i ∧ i < b + n) ↔ (b ≤ i ∧ i < b + (n + 1)) := by omega
      simp only [hiff]

/-- What the screen shows of lines `currentLine` to `bufferY`, when they fit. -/
theorem flushConsole_videoMemory (s : Con) (hcl : s.currentLine ≤ s.bufferY)
    (hfit : s.bufferY ≤ s.currentLine + 24) {r j : Nat} (hr : r < conHigh) (hj : j < conWidth) :
    (flushConsole s).videoMemory (r * conWidth + j) =
      if s.currentLine + r ≤ s.bufferY then grid s (s.currentLine + r) j else blank := by
  have hw : conWidth = 80 := rfl
  have hb : buffWidth = 80 := rfl
  have hh : conHigh = 25 := rfl
  show storeAll s.videoMemory (flushStores s) _ = _
  rw [flushStores, storeAll_append, List.range_eq_range', storeAll_range', storeAll_range']
  rw [hw] at hj ⊢
  rw [hh] at hr ⊢
  dsimp only
  by_cases hshown : s.currentLine + r ≤ s.bufferY
  · rw [if_neg (by omega), if_pos (by omega), if_pos hshown, grid, hb]
    congr 1
    omega
  · rw [if_pos (by omega), if_neg hshown]

/-! ## Sequences of calls -/

theorem Shown.flushConsole (h : Shown s t top) : Shown (flushConsole s) t top :=
  ⟨⟨h.x, h.y, h.rows⟩, h.fresh, h.x_lt, h.y_le⟩

theorem toCurrent_spec (hy : s.bufferY ≤ buffHigh - 2) : (toCurrent s).bufferY = s.bufferY ∧
    (toCurrent s).bufferX = s.bufferX ∧ (toCurrent s).videoBuffer = s.videoBuffer ∧
    (toCurrent s).currentLine = s.bufferY - 24 := by
  have hh : conHigh = 25 := rfl
  have hb : buffHigh = 128 := rfl
  unfold toCurrent
  by_cases hlow : s.bufferY ≥ conHigh - 1
  · rw [if_pos hlow]
    refine ⟨rfl, rfl, rfl, ?_⟩
    show (s.bufferY + 2 ^ 16 - conHigh + 1) % 2 ^ 16 = s.bufferY - 24
    omega
  · rw [if_neg hlow]
    exact ⟨rfl, rfl, rfl, (Nat.sub_eq_zero_of_le (by omega)).symm⟩

theorem Shown.congr {s' : Con} (h : Shown s t top) (hx : s'.bufferX = s.bufferX)
    (hy : s'.bufferY = s.bufferY) (hb : s'.videoBuffer = s.videoBuffer) : Shown s' t top where
  x := by rw [hx, h.x]
  y := by rw [hy, h.y]
  rows i hi j hj := by
    rw [grid, hb]
    exact h.rows i hi j hj
  fresh := h.fresh
  x_lt := by rw [hx]; exact h.x_lt
  y_le := by rw [hy]; exact h.y_le

theorem Shown.toCurrent (h : Shown s t top) : Shown (toCurrent s) t top :=
  have hs := toCurrent_spec h.y_le
  h.congr hs.2.1 hs.1 hs.2.2.1

/-- **One call**, up to its flush. -/
theorem Shown.beforeFlush (h : Shown s t top) (op : Op) :
    ∃ p top', beforeFlush s op = some p ∧ Shown p (t.run buffWidth op.acts) top' ∧
      (op.isWrite = true → p.currentLine = p.bufferY - 24) := by
  cases op with
  | write cstr =>
    obtain ⟨s', top', hs, hsh⟩ := h.putAll rcBlack rcWhite cstr
    refine ⟨Console.toCurrent s', top', ?_, hsh.toCurrent, fun _ => ?_⟩
    · rw [Console.beforeFlush, hs, Option.map_some]
    · rw [(toCurrent_spec hsh.y_le).2.2.2, (toCurrent_spec hsh.y_le).1]
  | writeColor cstr back fore =>
    obtain ⟨s', top', hs, hsh⟩ := h.putAll back fore cstr
    refine ⟨Console.toCurrent s', top', ?_, hsh.toCurrent, fun _ => ?_⟩
    · rw [Console.beforeFlush, hs, Option.map_some]
    · rw [(toCurrent_spec hsh.y_le).2.2.2, (toCurrent_spec hsh.y_le).1]
  | viewUp offset =>
    refine ⟨_, top, rfl, ?_, Bool.noConfusion⟩
    unfold Console.viewUp
    split
    · exact h.congr rfl rfl rfl
    · exact h.congr rfl rfl rfl
  | viewDown offset =>
    refine ⟨_, top, rfl, ?_, Bool.noConfusion⟩
    unfold Console.viewDown
    split
    · exact h.congr rfl rfl rfl
    · exact h.congr rfl rfl rfl

theorem Shown.exec (h : Shown s t top) (op : Op) :
    ∃ s' top', exec s op = some s' ∧ Shown s' (t.run buffWidth op.acts) top' ∧
      (op.isWrite = true → s'.currentLine = s'.bufferY - 24 ∧
        ∀ r < conHigh, ∀ j < conWidth, s'.videoMemory (r * conWidth + j) =
          if s'.currentLine + r ≤ s'.bufferY then grid s' (s'.currentLine + r) j else blank) := by
  obtain ⟨p, top', hp, hsh, hcl⟩ := h.beforeFlush op
  refine ⟨Console.flushConsole p, top', ?_, hsh.flushConsole, fun hw => ?_⟩
  · rw [exec_eq, hp, Option.map_some]
  · have hline := hcl hw
    exact ⟨hline, fun r hr j hj => flushConsole_videoMemory p (by omega) (by omega) hr hj⟩

theorem execAll_append (s : Con) (ops : List Op) (op : Op) :
    execAll s (ops ++ [op]) = (execAll s ops).bind fun s => exec s op := by
  induction ops generalizing s with
  | nil =>
    show (exec s op).bind some = exec s op
    exact Option.bind_fun_some _
  | cons o ops ih =>
    show (exec s o).bind (fun s => execAll s (ops ++ [op])) =
      ((exec s o).bind fun s => execAll s ops).bind _
    rw [Option.bind_assoc]
    exact congrArg _ (funext ih)

theorem consoleClear_videoBuffer (s : Con) : (consoleClear s).videoBuffer =
    (List.range (buffWidth * buffHigh)).foldl (fun m i => Function.update m i blank)
      s.videoBuffer := by
  dsimp only [consoleClear, moveCursor]

theorem consoleClear_shown (s : Con) : Shown (consoleClear s) (Terminal.empty blank) 0 where
  x := rfl
  y := rfl
  rows i hi j hj := by
    have hw : buffWidth = 80 := rfl
    have hh : buffHigh = 128 := rfl
    have hall := storeAll_range' s.videoBuffer (fun _ => blank) 0 (buffWidth * buffHigh)
    rw [storeAll, List.foldl_map, ← List.range_eq_range'] at hall
    rw [hw] at hj
    rw [hh] at hi
    rw [grid, consoleClear_videoBuffer, hall]
    exact if_pos (by rw [hw, hh]; omega)
  fresh := Terminal.fresh_empty blank
  x_lt := by show 0 < 80; decide
  y_le := Nat.zero_le _

theorem Shown.execAll : ∀ (ops : List Op) {s : Con} {t : Terminal Cell} {top : Nat},
    Shown s t top → ∃ s' top', execAll s ops = some s' ∧
      Shown s' (t.run buffWidth (ops.flatMap Op.acts)) top'
  | [], s, t, top, h => ⟨s, top, rfl, h⟩
  | op :: ops, s, t, top, h => by
    obtain ⟨s₁, top₁, h₁, hs, -⟩ := h.exec op
    obtain ⟨s₂, top₂, h₂, hs'⟩ := hs.execAll ops
    rw [Console.execAll, h₁, List.flatMap_cons, Terminal.run_append]
    exact ⟨s₂, top₂, h₂, hs'⟩

/-- The terminal after the characters of `ops`. -/
def terminalAfter (ops : List Op) : Terminal Cell :=
  (Terminal.empty blank).run buffWidth (ops.flatMap Op.acts)

/-- **The console is a window on an endless terminal.** After `console_clear` and any sequence of
calls (every store into `video_buffer` is in range: there is a result), the cursor is in its range,
and the buffer shows the terminal's rows from some row on, with the terminal's cursor. Right after a
write the screen shows the rows `buffer_y - 24` (or 0) to `buffer_y`, and blank rows. -/
theorem console_window (s₀ : Con) (ops : List Op) :
    ∃ s, execAll (consoleClear s₀) ops = some s ∧ s.bufferX < 80 ∧ s.bufferY ≤ 126 ∧
      (∃ top, (terminalAfter ops).x = s.bufferX ∧ (terminalAfter ops).y = top + s.bufferY ∧
        ∀ i < buffHigh, ∀ j < buffWidth,
          s.videoBuffer (i * buffWidth + j) = (terminalAfter ops).cells (top + i) j) ∧
      ∀ before op, ops = before ++ [op] → op.isWrite = true →
        s.currentLine = s.bufferY - 24 ∧
        ∀ r < conHigh, ∀ j < conWidth, s.videoMemory (r * conWidth + j) =
          if s.currentLine + r ≤ s.bufferY then
            s.videoBuffer ((s.currentLine + r) * buffWidth + j)
          else blank := by
  obtain ⟨s, top, hs, hsh⟩ := (consoleClear_shown s₀).execAll ops
  refine ⟨s, hs, hsh.x_lt, hsh.y_le, ⟨top, hsh.x, hsh.y, hsh.rows⟩, ?_⟩
  rintro before op rfl hw
  obtain ⟨s₁, top₁, h₁, hsh₁⟩ := (consoleClear_shown s₀).execAll before
  obtain ⟨s₂, -, h₂, -, hlast⟩ := hsh₁.exec op
  rw [execAll_append, h₁, Option.bind_some, h₂] at hs
  obtain rfl := Option.some.inj hs
  exact hlast hw

end Hurlex.Console
