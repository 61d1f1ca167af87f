import Mathlib.Data.BitVec

/-!
# Formatted output (`kernel/printk.c`)

`vsprintf` with `skip_atoi` and `number`. A string is the list of its characters before the NUL, so
`format` is what is left of the format string, `[]` where it points at the NUL, and `++format` fails
there. The kernel is compiled without optimisation: an `int` that overflows wraps.

`vsprintf` is cut into the passes of its `for` loop. What a pass writes to `buff` does not depend on
what is there already; only `%n` reads how long it is.
-/

namespace Hurlex.Printk

abbrev Byte := BitVec 8

abbrev Word := BitVec 32

def ch (c : Char) : Byte := BitVec.ofNat 8 c.toNat

/-- A value stored into an `int`. -/
def int (n : Int) : Int := n.bmod (2 ^ 32)

/-- `*format`. -/
def peek : List Byte → Byte
  | [] => 0
  | c :: _ => c

/-- `++format`. -/
def advance : List Byte → Option (List Byte)
  | [] => none
  | _ :: rest => some rest

/-- `is_digit(c)`. -/
def isDigit (c : Byte) : Bool := ch '0' ≤ c && c ≤ ch '9'

/-- `skip_atoi`, from its loop on: the number read and where `*s` ends up. -/
def skipAtoi (i : Int) : List Byte → Int × List Byte
  | [] => (i, [])
  | c :: rest =>
    if isDigit c then skipAtoi (int (i * 10 + c.toNat - (ch '0').toNat)) rest else (i, c :: rest)

/-- The bits of `flags` and `type`. -/
structure Flags where
  zeropad : Bool := false
  sign : Bool := false
  plus : Bool := false
  space : Bool := false
  left : Bool := false
  special : Bool := false
  small : Bool := false
  deriving DecidableEq

/-! ## Padding -/

/-- `while (n > lo) { *str++ = c; --n; }`: what is written, and `n` afterwards. -/
def fill (lo : Int) (c : Byte) (n : Int) : List Byte × Int :=
  if lo < n then (c :: (fill lo c (n - 1)).1, (fill lo c (n - 1)).2) else ([], n)
termination_by (n - lo).toNat

/-- `while (lo < n--) *str++ = c;` -/
def postDec (lo : Int) (c : Byte) (n : Int) : List Byte × Int :=
  ((fill lo c n).1, int ((fill lo c n).2 - 1))

/-- `while (--n > 0) *str++ = c;` -/
def preDec (c : Byte) (n : Int) : List Byte × Int := fill 0 c (int (n - 1))

/-! ## `number` -/

def digits : List Byte := "0123456789ABCDEFGHIJKLMNOPQRSTUVWXYZ".toList.map ch

/-- The digits under `SMALL`. -/
def smallDigits : List Byte := "0123456789abcdefghijklmnopqrstuvwxyz".toList.map ch

/-- `while (num != 0) tmp[i++] = digits[do_div(num,base)];`, with `divl` dividing without a sign. -/
def tmpDigits (digits : List Byte) (base : Nat) (hb : 2 ≤ base) (num : Nat) : List Byte :=
  if num = 0 then []
  else digits.getD (num % base) 0 :: tmpDigits digits base hb (num / base)
termination_by num
decreasing_by exact Nat.div_lt_self (Nat.pos_of_ne_zero ‹_›) hb

/-- `number`: the characters it appends, or `none` where it returns 0. -/
def number (num : Word) (base : Nat) (size precision : Int) (type : Flags) :
    Option (List Byte) :=
  let digits := if type.small then smallDigits else digits
  let type := if type.left then { type with zeropad := false } else type
  if hb : base < 2 ∨ 36 < base then none
  else
    let c := if type.zeropad then ch '0' else ch ' '
    let minus := type.sign && num.toInt < 0
    let sign : Byte :=
      if minus then ch '-' else if type.plus then ch '+' else if type.space then ch ' ' else 0
    let num := if minus then -num else num
    let size := if sign ≠ 0 then int (size - 1) else size
    let size :=
      if type.special then
        if base = 16 then int (size - 2) else if base = 8 then int (size - 1) else size
      else size
    let tmp := if num = 0 then [ch '0'] else tmpDigits digits base (by omega) num.toNat
    let i : Int := tmp.length
    let precision := if precision < i then i else precision
    let size := int (size - precision)
    -- each loop is entered with the `size` the one before left
    let blanks := if !(type.zeropad || type.left) then postDec 0 (ch ' ') size else ([], size)
    let signText := if sign ≠ 0 then [sign] else []
    let prefixText :=
      if type.special then
        if base = 8 then [ch '0'] else if base = 16 then [ch '0', digits.getD 33 0] else []
      else []
    let pads := if !type.left then postDec 0 c blanks.2 else ([], blanks.2)
    let zeros := postDec i (ch '0') precision
    let tail := postDec 0 (ch ' ') pads.2
    some (blanks.1 ++ signText ++ prefixText ++ pads.1 ++ zeros.1 ++ tmp.reverse ++ tail.1)

/-! ## The fields of a directive -/

/-- What `vsprintf` knows inside a directive; `next` counts the arguments `va_arg` has read. -/
structure Scan where
  format : List Byte
  flags : Flags := {}
  fieldWidth : Int := -1
  precision : Int := -1
  next : Nat

/-- The flag a character sets, if it is one. -/
def setFlag (c : Byte) (flags : Flags) : Option Flags :=
  if c = ch '-' then some { flags with left := true }
  else if c = ch '+' then some { flags with plus := true }
  else if c = ch ' ' then some { flags with space := true }
  else if c = ch '#' then some { flags with special := true }
  else if c = ch '0' then some { flags with zeropad := true }
  else none

/-- The jumps to `repeat:`; `format` points at the `%` or at the last flag. -/
def scanFlags (flags : Flags) : List Byte → Option (Flags × List Byte)
  | [] => none
  | _ :: format =>
    match setFlag (peek format) flags with
    | some flags => scanFlags flags format
    | none => some (flags, format)

section Arguments

variable (args : Nat → Word)

/-- "get field width". -/
def scanWidth (s : Scan) : Scan :=
  if isDigit (peek s.format) then
    { s with
      fieldWidth := (skipAtoi 0 s.format).1
      format := (skipAtoi 0 s.format).2 }
  else if peek s.format = ch '*' then
    -- the pointer stays at the `*`
    let fieldWidth := (args s.next).toInt
    if fieldWidth < 0 then
      { s with
        fieldWidth := int (-fieldWidth)
        flags := { s.flags with left := true }
        next := s.next + 1 }
    else { s with fieldWidth, next := s.next + 1 }
  else s

/-- What follows the `.` of a precision. -/
def scanDigits (s : Scan) : Scan :=
  if isDigit (peek s.format) then
    { s with
      precision := (skipAtoi 0 s.format).1
      format := (skipAtoi 0 s.format).2 }
  else if peek s.format = ch '*' then
    -- again without advancing
    { s with precision := (args s.next).toInt, next := s.next + 1 }
  else s

/-- "get the precision". -/
def scanPrecision (s : Scan) : Option Scan :=
  if peek s.format = ch '.' then do
    let format ← advance s.format
    let s := scanDigits args { s with format }
    some (if s.precision < 0 then { s with precision := 0 } else s)
  else some s

/-- "get the conversion qualifier", which is not kept. -/
def scanQualifier (s : Scan) : Option Scan :=
  if peek s.format = ch 'h' ∨ peek s.format = ch 'l' ∨ peek s.format = ch 'L' then do
    let format ← advance s.format
    some { s with format }
  else some s

/-- The directive at `format` up to its conversion. -/
def scan (next : Nat) (format : List Byte) : Option Scan := do
  let (flags, format) ← scanFlags {} format
  let s ← scanPrecision args (scanWidth args { format, flags, next })
  scanQualifier s

/-! ## The conversions -/

/-- `case 'c'`. -/
def convC (flags : Flags) (fieldWidth : Int) (arg : Word) : List Byte :=
  let pads := if !flags.left then preDec (ch ' ') fieldWidth else ([], fieldWidth)
  pads.1 ++ [arg.setWidth 8] ++ (preDec (ch ' ') pads.2).1

/-- `case 's'`, for an argument that points at `s`. -/
def convS (flags : Flags) (fieldWidth precision : Int) (s : List Byte) : List Byte :=
  let len := int s.length
  let len := if precision < 0 then len else if precision < len then precision else len
  let pads := if !flags.left then postDec len (ch ' ') fieldWidth else ([], fieldWidth)
  pads.1 ++ s.take len.toNat ++ (postDec len (ch ' ') pads.2).1

/-- `case 'p'`. -/
def convP (flags : Flags) (fieldWidth precision : Int) (arg : Word) : Option (List Byte) :=
  if fieldWidth = -1 then number arg 16 8 precision { flags with zeropad := true }
  else number arg 16 fieldWidth precision flags

/-- A pass of the `for` loop of `vsprintf`: what it appends to `buff`, how many arguments have been
read after it, what `%n` stored, and `format` for the next pass. -/
structure Pass where
  text : List Byte
  next : Nat
  stores : List (Word × Int) := []
  format : List Byte

/-- The switch on the conversion. `strAt p` is the string at `p`, and `written` is `str - buff`. -/
def convert (strAt : Word → List Byte) (written : Nat) (s : Scan) : Option Pass :=
  let c := peek s.format
  let arg := args s.next
  let put (text : List Byte) : Option Pass := do
    some { text, next := s.next + 1, format := ← advance s.format }
  let putNumber (base : Nat) (flags : Flags) : Option Pass := do
    put (← number arg base s.fieldWidth s.precision flags)
  if c = ch 'c' then put (convC s.flags s.fieldWidth arg)
  else if c = ch 's' then put (convS s.flags s.fieldWidth s.precision (strAt arg))
  else if c = ch 'o' then putNumber 8 s.flags
  else if c = ch 'p' then do put (← convP s.flags s.fieldWidth s.precision arg)
  else if c = ch 'x' then putNumber 16 { s.flags with small := true }
  else if c = ch 'X' then putNumber 16 s.flags
  else if c = ch 'd' ∨ c = ch 'i' then putNumber 10 { s.flags with sign := true }
  else if c = ch 'u' then putNumber 10 s.flags
  else if c = ch 'b' then putNumber 2 s.flags
  else if c = ch 'n' then do
    some
      { text := [], next := s.next + 1, stores := [(arg, int written)]
        format := ← advance s.format }
  else
    let percent := if c ≠ ch '%' then [ch '%'] else []
    if c ≠ 0 then do
      some { text := percent ++ [c], next := s.next, format := ← advance s.format }
    -- `--format` here undoes the `++format` of the loop
    else some { text := percent, next := s.next, format := s.format }

/-! ## `vsprintf` -/

/-- One pass of the loop. -/
def pass (strAt : Word → List Byte) (next written : Nat) (format : List Byte) : Option Pass := do
  if peek format ≠ ch '%' then
    some { text := [peek format], next, format := ← advance format }
  else
    let s ← scan args next format
    convert args strAt written s

/-- The passes of `for (str = buff ; *format ; ++format)`, at most `fuel` of them. -/
def passes (strAt : Word → List Byte) : Nat → Nat → Nat → List Byte → Option (List Pass)
  | fuel, next, written, format =>
    if peek format = 0 then some []
    else
      match fuel with
      | 0 => none
      | fuel + 1 => do
        let q ← pass args strAt next written format
        let qs ← passes strAt fuel q.next (written + q.text.length) q.format
        some (q :: qs)

/-- The passes of `vsprintf(buff, format, args)`: as many as there are characters are enough. -/
def vsprintfPasses (strAt : Word → List Byte) (format : List Byte) : Option (List Pass) :=
  passes args strAt format.length 0 0 format

/-- `vsprintf`: the string it leaves in `buff`. -/
def vsprintf (strAt : Word → List Byte) (format : List Byte) : Option (List Byte) :=
  (vsprintfPasses args strAt format).map fun qs => qs.flatMap Pass.text

end Arguments

end Hurlex.Printk
