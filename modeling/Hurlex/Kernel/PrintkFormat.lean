import Hurlex.Kernel.PrintkNumber

/-!
# The format language of `vsprintf` (`kernel/printk.c`, lines 60 to 321)

A format is a list of items, literal characters and directives
`%[flags][width][.precision][h, l or L]conversion`. `rendering` says what it stands for: the text of
each item in turn, a directive's with the width and the precision it gives, and how many arguments have
been read by then. `%n`, which prints nothing, is left out of the language.

Characters and strings stand in a `column` of the given width. Numbers are what `number` makes of them,
and `Formats` (in `Kernel.PrintkNumber`) says what that is: padding, sign, prefix and digits. `Renders`
is that `vsprintf` produces the text a format stands for; `Kernel.PrintkRender` says when it does.

Out of scope: formats that are no list of items, which `Kernel.PrintkScan` follows byte by byte, the
size of the caller's buffer, and the stack: the arguments are a sequence of words, and the string at an
address is given.
-/

namespace Hurlex.Printk

/-! ## Formats -/

inductive Flag where
  | minus | plus | space | hash | zero
  deriving DecidableEq

def Flag.char : Flag → Byte
  | minus => ch '-'
  | plus => ch '+'
  | space => ch ' '
  | hash => ch '#'
  | zero => ch '0'

def Flag.set (flags : Flags) : Flag → Flags
  | minus => { flags with left := true }
  | plus => { flags with plus := true }
  | space => { flags with space := true }
  | hash => { flags with special := true }
  | zero => { flags with zeropad := true }

/-- A width in digits does not start with a zero, which would be a flag: the digits are `first + 1`
and then `rest`. -/
inductive Width where
  | absent
  | digits (first : Fin 9) (rest : List (Fin 10))
  | star

inductive Precision where
  | digits (ds : List (Fin 10))
  | star

inductive Qualifier where
  | h | l | L

inductive Conversion where
  | c | s | d | i | o | u | x | X | b | p | percent
  deriving DecidableEq

structure Directive where
  flags : List Flag
  width : Width
  precision : Option Precision
  qualifier : Option Qualifier
  conversion : Conversion

inductive Item where
  | literal (c : {c : Byte // c ≠ 0 ∧ c ≠ ch '%'})
  | directive (d : Directive)

/-! ## The string of a format -/

def digitChar (d : Fin 10) : Byte := BitVec.ofNat 8 (48 + d.val)

def digitText (ds : List (Fin 10)) : List Byte := ds.map digitChar

def Width.text : Width → List Byte
  | absent => []
  | digits first rest => digitText (first.succ :: rest)
  | star => [ch '*']

def Precision.text : Precision → List Byte
  | digits ds => ch '.' :: digitText ds
  | star => [ch '.', ch '*']

def Qualifier.char : Qualifier → Byte
  | h => ch 'h'
  | l => ch 'l'
  | L => ch 'L'

def Conversion.char : Conversion → Byte
  | c => ch 'c'
  | s => ch 's'
  | d => ch 'd'
  | i => ch 'i'
  | o => ch 'o'
  | u => ch 'u'
  | x => ch 'x'
  | X => ch 'X'
  | b => ch 'b'
  | p => ch 'p'
  | percent => ch '%'

/-- A directive followed by `tail`, from its qualifier on. -/
def Directive.qualified (d : Directive) (tail : List Byte) : List Byte :=
  (d.qualifier.map Qualifier.char).toList ++ d.conversion.char :: tail

/-- The same from its precision on. -/
def Directive.dotted (d : Directive) (tail : List Byte) : List Byte :=
  d.precision.elim [] Precision.text ++ d.qualified tail

/-- The whole directive, followed by `tail`. -/
def Directive.before (d : Directive) (tail : List Byte) : List Byte :=
  ch '%' :: (d.flags.map Flag.char ++ (d.width.text ++ d.dotted tail))

def formatOf : List Item → List Byte
  | [] => []
  | .literal c :: items => c.val :: formatOf items
  | .directive d :: items => d.before (formatOf items)

/-! ## What a format stands for -/

def decimal (ds : List (Fin 10)) : Nat := ds.foldl (fun n d => n * 10 + d.val) 0

/-- The field width, -1 for none, and whether it asks for left justification, as a negative argument
does. -/
def Width.value (arg : Word) : Width → Int × Bool
  | absent => (-1, false)
  | digits first rest => (int (decimal (first.succ :: rest)), false)
  | star => if arg.toInt < 0 then (int (-arg.toInt), true) else (arg.toInt, false)

def Width.taken : Width → Nat
  | star => 1
  | _ => 0

/-- The precision, -1 for none. -/
def precisionValue (arg : Word) : Option Precision → Int
  | none => -1
  | some (.digits ds) => max (int (decimal ds)) 0
  | some .star => max arg.toInt 0

def precisionTaken : Option Precision → Nat
  | some .star => 1
  | _ => 0

def Conversion.taken : Conversion → Nat
  | percent => 0
  | _ => 1

def blanks (n : Int) : List Byte := List.replicate n.toNat (ch ' ')

/-- `text`, which takes up `len` characters of a column `width` wide: blanks come in front of it, or
behind it if it is to be on the left. A count that is taken below the lowest `int` starts again at the
highest, and as many blanks as there are up to it come behind the text. -/
def column (left : Bool) (width len : Int) (text : List Byte) : List Byte :=
  if left then text ++ blanks (width - len)
  else blanks (width - len) ++ text ++ blanks (int (min width len - 1) - len)

/-- How many characters of a string are printed. -/
def printedLength (precision : Int) (s : List Byte) : Int :=
  if precision < 0 then int s.length else min precision (int s.length)

/-- The conversions that print a number: its base, and the width and the flags it is printed with. A
pointer is printed with at least eight digits if no width is given. -/
def Conversion.numeral (flags : Flags) (width : Int) : Conversion → Option (Nat × Int × Flags)
  | d | i => some (10, width, { flags with sign := true })
  | o => some (8, width, flags)
  | u => some (10, width, flags)
  | x => some (16, width, { flags with small := true })
  | X => some (16, width, flags)
  | b => some (2, width, flags)
  | p => some (if width = -1 then (16, 8, { flags with zeropad := true }) else (16, width, flags))
  | c | s | percent => none

/-- `arg` with the given flags, width and precision. -/
def Conversion.render (strAt : Word → List Byte) (flags : Flags) (width precision : Int)
    (arg : Word) (conversion : Conversion) : List Byte :=
  match conversion.numeral flags width with
  | some (base, size, type) => (number arg base size precision type).getD []
  | none =>
    match conversion with
    -- the character takes one of the columns
    | c => column flags.left (int (width - 1)) 0 [arg.setWidth 8]
    | s =>
      let len := printedLength precision (strAt arg)
      column flags.left width len ((strAt arg).take len.toNat)
    | _ => [ch '%']

/-- The text of each pass and the arguments read after it. -/
def written (qs : List Pass) : List (List Byte × Nat) := qs.map fun q => (q.text, q.next)

section Rendering

variable (args : Nat → Word) (strAt : Word → List Byte)

/-- A directive's text and the number of arguments read after it, when `next` were before. -/
def Directive.render (next : Nat) (d : Directive) : List Byte × Nat :=
  let flags := d.flags.foldl Flag.set {}
  let width := d.width.value (args next)
  let flags := { flags with left := flags.left || width.2 }
  let next := next + d.width.taken
  let precision := precisionValue (args next) d.precision
  let next := next + precisionTaken d.precision
  (d.conversion.render strAt flags width.1 precision (args next), next + d.conversion.taken)

def Item.render (next : Nat) : Item → List Byte × Nat
  | literal c => ([c.val], next)
  | directive d => d.render args strAt next

/-- **What a format stands for**, item by item. -/
def rendering (next : Nat) : List Item → List (List Byte × Nat)
  | [] => []
  | item :: items => item.render args strAt next :: rendering (item.render args strAt next).2 items

/-- `vsprintf` produces what the format stands for: each of its passes writes the text of one item
and reads the arguments of that item, and the string is the concatenation. -/
structure Renders (items : List Item) : Prop where
  passes : (vsprintfPasses args strAt (formatOf items)).map written =
      some (rendering args strAt 0 items)
  string : vsprintf args strAt (formatOf items) =
      some ((rendering args strAt 0 items).flatMap Prod.fst)

/-- `text` in a column `width` wide. -/
def padded (left : Bool) (width : Int) (text : List Byte) : List Byte :=
  if left then text ++ blanks (width - text.length) else blanks (width - text.length) ++ text

/-- What the conversions stand for as long as no count leaves the range of an `int`: a character and
a string, cut to the precision, fill up the width with blanks; a number can be read back. -/
structure Legible : Prop where
  character : ∀ (flags : Flags) (width precision : Int) (arg : Word),
    -2 ^ 31 + 1 < width → width < 2 ^ 31 →
    Conversion.c.render strAt flags width precision arg =
      padded flags.left width [arg.setWidth 8]
  string : ∀ (flags : Flags) (width precision : Int) (arg : Word),
    -2 ^ 31 < width → (strAt arg).length < 2 ^ 31 →
    Conversion.s.render strAt flags width precision arg = padded flags.left width
      (if precision < 0 then strAt arg else (strAt arg).take precision.toNat)
  number : ∀ (conv : Conversion) (flags type : Flags) (width precision size : Int) (arg : Word)
    (base : Nat), conv.numeral flags width = some (base, size, type) →
    -2 ^ 30 < size ∧ size < 2 ^ 30 → -2 ^ 30 < precision ∧ precision < 2 ^ 30 →
    -2 ^ 31 + spent type ≤ size - (signText type arg).length - (prefixText type base).length -
      max precision (digitCount base (magnitude type arg)) →
    Formats type arg base size precision (conv.render strAt flags width precision arg)

end Rendering

/-- The directive takes its width or its precision from an argument. -/
def Directive.Starred (d : Directive) : Prop := d.width = .star ∨ d.precision = some .star

end Hurlex.Printk
