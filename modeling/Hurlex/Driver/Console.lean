import Mathlib.Data.BitVec
import Mathlib.Logic.Function.Basic

/-!
# The text console (`arch/i386/driver/console.c`)

Characters go into `video_buffer`, `BUFF_HIGH` rows of which `_flush_console` copies some to the
screen. A store outside `video_buffer` has no result (`none`). The VGA memory goes on behind the
screen, so `flushStores` lists the stores of `_flush_console` by themselves.

The functions run with interrupts off or to their end; that is not modelled here.
-/

namespace Hurlex.Console

abbrev Byte := BitVec 8

/-- A character and its attribute. -/
abbrev Cell := BitVec 16

/-- `CON_WIDTH`. -/
def conWidth : Nat := 80

/-- `CON_HIGH`. -/
def conHigh : Nat := 25

/-- `BUFF_WIDTH`. -/
def buffWidth : Nat := 80

/-- `BUFF_HIGH`. -/
def buffHigh : Nat := 128

/-- Store into a `uint16_t`. -/
def u16 (n : Nat) : Nat := n % 2 ^ 16

/-- The static variables of `console.c`, and the two cursor registers of the VGA controller. -/
structure Con where
  videoMemory : Nat → Cell
  cursorX : Nat
  cursorY : Nat
  videoBuffer : Nat → Cell
  bufferX : Nat
  bufferY : Nat
  currentLine : Nat
  curHigh : Nat
  curLow : Nat

def rcBlack : Byte := 0

def rcWhite : Byte := 15

/-- `attribute_byte << 8`. -/
def attributeOf (back fore : Byte) : Cell :=
  let attributeByte := (back <<< 4) ||| (fore &&& 0x0F)
  attributeByte.setWidth 16 <<< 8

/-- `blank`. -/
def blank : Cell := 0x20 ||| attributeOf 0 15

/-- `move_cursor`. -/
def moveCursor (s : Con) : Con :=
  let cursor := u16 (s.cursorY * conWidth + s.cursorX)
  { s with curHigh := cursor / 2 ^ 8 % 2 ^ 8, curLow := cursor % 2 ^ 8 }

/-- `console_clear`. -/
def consoleClear (s : Con) : Con :=
  let s := { s with
    videoMemory := (List.range (conWidth * conHigh)).foldl
      (fun m i => Function.update m i blank) s.videoMemory
    cursorX := 0
    cursorY := 0 }
  let s := moveCursor s
  { s with
    videoBuffer := (List.range (buffWidth * buffHigh)).foldl
      (fun m i => Function.update m i blank) s.videoBuffer
    bufferX := 0
    bufferY := 0
    currentLine := 0 }

/-- `video_buffer[i] = c`. -/
def storeBuffer (s : Con) (i : Nat) (c : Cell) : Option Con :=
  if i < buffWidth * buffHigh then
    some { s with videoBuffer := Function.update s.videoBuffer i c }
  else none

/-- The first loop of `scroll_buffer`, after `n` passes. -/
def copyUp (s : Con) : Nat → Option Con
  | 0 => some s
  | n + 1 => do
    let s ← copyUp s n
    storeBuffer s n (s.videoBuffer (n + buffWidth))

/-- The second loop of `scroll_buffer`, after `n` passes. -/
def clearLast (s : Con) : Nat → Option Con
  | 0 => some s
  | n + 1 => do
    let s ← clearLast s n
    storeBuffer s ((buffHigh - 1) * buffWidth + n) blank

/-- `scroll_buffer`. -/
def scrollBuffer (s : Con) : Option Con :=
  if s.bufferY = buffHigh - 1 then do
    let s ← copyUp s ((buffHigh - 1) * buffWidth)
    let s ← clearLast s buffWidth
    return { s with bufferY := s.bufferY - 1 }
  else some s

/-- What `console_putc_color` does for a character before it looks at the end of the line. A `char`
is signed: from `0x80` on it is less than a space. -/
def putChar (s : Con) (c : Byte) (attr : Cell) : Option Con :=
  if c = 0x08 ∧ s.bufferX ≠ 0 then some { s with bufferX := s.bufferX - 1 }
  -- `(buffer_x + 8) & ~(8 - 1)`
  else if c = 0x09 then some { s with bufferX := (s.bufferX + 8) / 8 * 8 }
  else if c = 0x0D then some { s with bufferX := 0 }
  else if c = 0x0A then some { s with bufferX := 0, bufferY := s.bufferY + 1 }
  else if BitVec.sle 0x20 c then do
    let s ← storeBuffer s (s.bufferY * buffWidth + s.bufferX) (c.signExtend 16 ||| attr)
    return { s with bufferX := s.bufferX + 1 }
  else some s

/-- `console_putc_color`: a full line is followed by the next. -/
def wrapLine (s : Con) : Con :=
  if s.bufferX = buffWidth then { s with bufferX := 0, bufferY := s.bufferY + 1 } else s

/-- `console_putc_color`. -/
def consolePutcColor (s : Con) (c back fore : Byte) : Option Con := do
  let s ← putChar s c (attributeOf back fore)
  scrollBuffer (wrapLine s)

/-- The stores of `_flush_console` into `video_memory`, in order. -/
def flushStores (s : Con) : List (Nat × Cell) :=
  let beginLine := s.currentLine
  let endLine := s.bufferY + 1
  let n := endLine * conWidth - beginLine * conWidth
  (List.range n).map (fun i => (i, s.videoBuffer (beginLine * conWidth + i))) ++
    (List.range' n (conWidth * conHigh - n)).map fun i => (i, blank)

def storeAll (m : Nat → Cell) (stores : List (Nat × Cell)) : Nat → Cell :=
  stores.foldl (fun m st => Function.update m st.1 st.2) m

/-- `_flush_console`. -/
def flushConsole (s : Con) : Con :=
  let endLine := s.bufferY + 1
  moveCursor { s with
    videoMemory := storeAll s.videoMemory (flushStores s)
    cursorX := s.bufferX
    cursorY := u16 (endLine + 2 ^ 16 - s.currentLine - 1) }

/-- The first line `_flush_console_current` shows. -/
def toCurrent (s : Con) : Con :=
  if s.bufferY ≥ conHigh - 1 then
    { s with currentLine := u16 (s.bufferY + 2 ^ 16 - conHigh + 1) }
  else { s with currentLine := 0 }

/-- `_flush_console_current`. -/
def flushConsoleCurrent (s : Con) : Con := flushConsole (toCurrent s)

/-- The loop of `console_write`, up to the NUL. -/
def putAll (s : Con) (cstr : List Byte) (back fore : Byte) : Option Con :=
  match cstr with
  | [] => some s
  | c :: cstr =>
    if c = 0 then some s
    else do
      let s ← consolePutcColor s c back fore
      putAll s cstr back fore

/-- `console_write`. -/
def consoleWrite (s : Con) (cstr : List Byte) : Option Con := do
  let s ← putAll s cstr rcBlack rcWhite
  return flushConsoleCurrent s

/-- `console_write_color`. -/
def consoleWriteColor (s : Con) (cstr : List Byte) (back fore : Byte) : Option Con := do
  let s ← putAll s cstr back fore
  return flushConsoleCurrent s

/-- The first line `console_view_up` goes to. -/
def viewUp (s : Con) (offset : Nat) : Con :=
  if s.currentLine ≥ offset then { s with currentLine := s.currentLine - offset }
  else { s with currentLine := 0 }

/-- `console_view_up`. -/
def consoleViewUp (s : Con) (offset : Nat) : Con := flushConsole (viewUp s offset)

/-- The first line `console_view_down` goes to. -/
def viewDown (s : Con) (offset : Nat) : Con :=
  if s.currentLine + offset < s.bufferY then { s with currentLine := s.currentLine + offset }
  else { s with currentLine := s.bufferY }

/-- `console_view_down`. -/
def consoleViewDown (s : Con) (offset : Nat) : Con := flushConsole (viewDown s offset)

/-! ## Sequences of calls -/

inductive Op where
  | write (cstr : List Byte)
  | writeColor (cstr : List Byte) (back fore : Byte)
  | viewUp (offset : Nat)
  | viewDown (offset : Nat)

def Op.isWrite : Op → Bool
  | .write _ | .writeColor _ _ _ => true
  | .viewUp _ | .viewDown _ => false

def exec (s : Con) : Op → Option Con
  | .write cstr => consoleWrite s cstr
  | .writeColor cstr back fore => consoleWriteColor s cstr back fore
  | .viewUp offset => some (consoleViewUp s offset)
  | .viewDown offset => some (consoleViewDown s offset)

def execAll (s : Con) : List Op → Option Con
  | [] => some s
  | op :: ops => do
    let s ← exec s op
    execAll s ops

/-- What an operation does up to its call of `_flush_console`. -/
def beforeFlush (s : Con) : Op → Option Con
  | .write cstr => (putAll s cstr rcBlack rcWhite).map toCurrent
  | .writeColor cstr back fore => (putAll s cstr back fore).map toCurrent
  | .viewUp offset => some (Console.viewUp s offset)
  | .viewDown offset => some (Console.viewDown s offset)

theorem exec_eq (s : Con) (op : Op) : exec s op = (beforeFlush s op).map flushConsole := by
  cases op with
  | write cstr =>
    show (putAll s cstr rcBlack rcWhite).bind _ = _
    rw [beforeFlush, Option.map_map, Option.map_eq_bind]
    rfl
  | writeColor cstr back fore =>
    show (putAll s cstr back fore).bind _ = _
    rw [beforeFlush, Option.map_map, Option.map_eq_bind]
    rfl
  | viewUp | viewDown => rfl

end Hurlex.Console
