import Mathlib.Data.BitVec
import Hurlex.Lib.Ring
import Hurlex.Types

/-!
# The keyboard driver (`driver/kboard.c`)

`keyboard_handler` turns scancodes into bytes and puts them into a ring, `kb_getchar` takes them out
again. What `kb_init` does besides choosing the layout is left out, as are the entries of
`char_dev_t` that do not touch the queue.
-/

namespace Hurlex.Kboard

open Lib

abbrev Byte := BitVec 8

def CONTROL : Byte := 0x1

def LSHIFT : Byte := 0x8

def RSHIFT : Byte := 0x10

def CAPSLOCK : Byte := 0x20

/-- `RELEASED_MASK`. -/
def releasedMask : Byte := 0x80

/-- `KBUFFER_LEN`. -/
def kbufferLen : Nat := 1024

/-- `keymap_t`. The arrays hold 0 from where the lists end. -/
structure Keymap where
  scancodes : List Byte
  capslockScancodes : List Byte
  shiftScancodes : List Byte
  controlMap : List Byte
  controls : Byte

/-- The characters of a row of keys. -/
def row (keys : String) : List Byte := keys.toList.map fun c => BitVec.ofNat 8 c.toNat

/-- From the keypad's `*` on, with what stands for the up and down arrows. -/
def specialKeys (up down : Byte) : List Byte :=
  row "*" ++ [0] ++ row " " ++ List.replicate 14 0 ++ [up, 0] ++ row "-" ++ [0, 0, 0] ++ row "+" ++
    [0, down]

def usKeymap : Keymap where
  scancodes := [0, 27] ++ row "1234567890-=" ++ [8] ++ [9] ++ row "qwertyuiop[]\n" ++
    [0] ++ row "asdfghjkl;" ++ [39, 96] ++ [0] ++ row "\\zxcvbnm,./" ++ [0] ++ specialKeys 72 80
  capslockScancodes := [0, 27] ++ row "1234567890-=" ++ [8] ++ [9] ++ row "QWERTYUIOP\x7b\x7d\n" ++
    [0] ++ row "ASDFGHJKL;" ++ [39, 96] ++ [0] ++ row "|ZXCVBNM,./" ++ [0] ++ specialKeys 0 0
  shiftScancodes := [0, 27] ++ row "!@#$%^&*()_+" ++ [8] ++ [9] ++ row "QWERTYUIOP\x7b\x7d\n" ++
    [0] ++ row "ASDFGHJKL:\"~" ++ [0] ++ row "|ZXCVBNM<>?" ++ [0] ++ specialKeys 0 0
  controlMap := [29, 56, 0, 42, 54, 58, 70, 69]
  controls := 0

/-- `struct kboard_device`, with the layout it points to. -/
structure KboardDevice where
  currLayout : Keymap
  kbuffer : Nat → Byte
  kfront : Nat
  krear : Nat

/-- `kb_device` before `kb_init`: in the bss. -/
def bss (layout : Keymap) : KboardDevice := ⟨layout, fun _ => 0, 0, 0⟩

def kbInit (d : KboardDevice) : KboardDevice := { d with currLayout := usKeymap }

/-- `(i + 1) % KBUFFER_LEN`. -/
def bump (i : Nat) : Nat := u32 (i + 1) % kbufferLen

/-! ## `kb_getchar` -/

def kbGetchar (d : KboardDevice) : KboardDevice × Byte :=
  if d.kfront ≠ d.krear then
    ({ d with kfront := bump d.kfront }, d.kbuffer d.kfront)
  else (d, 0)

/-! ## `keyboard_handler` -/

def KboardDevice.setControls (d : KboardDevice) (controls : Byte) : KboardDevice :=
  { d with currLayout := { d.currLayout with controls } }

/-- The place of a key among the first `n` control keys. -/
def Keymap.controlIndex (layout : Keymap) (n : Nat) (key : Byte) : Option Nat :=
  (List.range n).find? fun i => layout.controlMap.getD i 0 == key

/-- The character set for the controls that are set. -/
def Keymap.charset (layout : Keymap) : List Byte :=
  let scancodes := layout.scancodes
  let scancodes :=
    if layout.controls &&& (LSHIFT ||| RSHIFT) ≠ 0 ∧ layout.controls &&& CONTROL = 0 then
      layout.shiftScancodes
    else scancodes
  if layout.controls &&& CAPSLOCK ≠ 0 ∧ layout.controls &&& CONTROL = 0 then
    layout.capslockScancodes
  else scancodes

/-- The end of `keyboard_handler`: a byte goes into the queue if there is room. -/
def enqueue (d : KboardDevice) (ch : Byte) : KboardDevice :=
  if d.kfront ≠ bump d.krear then
    { d with kbuffer := Function.update d.kbuffer d.krear ch, krear := bump d.krear }
  else d

def keyboardHandler (d : KboardDevice) (scancode : Byte) : KboardDevice :=
  let layout := d.currLayout
  if scancode &&& releasedMask ≠ 0 then
    match layout.controlIndex 5 (scancode &&& ~~~releasedMask) with
    | some i => d.setControls (layout.controls &&& ~~~BitVec.twoPow 8 i)
    | none => d
  else
    match layout.controlIndex 8 scancode with
    | some i =>
      if layout.controls &&& BitVec.twoPow 8 i ≠ 0 then
        d.setControls (layout.controls &&& ~~~BitVec.twoPow 8 i)
      else d.setControls (layout.controls ||| BitVec.twoPow 8 i)
    | none => enqueue d (layout.charset.getD scancode.toNat 0)

/-! ## The queue -/

variable {d : KboardDevice} {ch : Byte}

/-- The indices are those of the array. -/
structure KboardDevice.InRange (d : KboardDevice) : Prop where
  kfront : d.kfront < kbufferLen
  krear : d.krear < kbufferLen

/-- The bytes waiting, the oldest first. -/
def KboardDevice.pending (d : KboardDevice) : List Byte :=
  Ring.contents kbufferLen d.kbuffer d.kfront d.krear

theorem bump_eq (i : Nat) : bump i = Ring.next kbufferLen i :=
  Nat.mod_mod_of_dvd (i + 1) (by decide : kbufferLen ∣ 2 ^ 32)

theorem bump_lt (i : Nat) : bump i < kbufferLen := Nat.mod_lt _ (by decide)

/-- **The queue is full** with `KBUFFER_LEN - 1` bytes. -/
theorem KboardDevice.InRange.full_iff (h : d.InRange) :
    d.kfront = bump d.krear ↔ d.pending.length = kbufferLen - 1 := by
  rw [bump_eq, Ring.full_iff h.kfront h.krear, pending, Ring.length_contents]

theorem enqueue_of_full (h : d.InRange) (hfull : d.pending.length = kbufferLen - 1) :
    enqueue d ch = d := if_neg (not_not.2 (h.full_iff.2 hfull))

/-- With room, the byte goes behind the ones waiting, and the reader's cell stays as it is. -/
theorem enqueue_of_room (h : d.InRange) (hroom : d.pending.length ≠ kbufferLen - 1) :
    (enqueue d ch).InRange ∧ (enqueue d ch).pending = d.pending ++ [ch] ∧
      (enqueue d ch).kfront = d.kfront ∧
      (d.kfront ≠ d.krear → (enqueue d ch).kfront ≠ (enqueue d ch).krear ∧
        (enqueue d ch).kbuffer d.kfront = d.kbuffer d.kfront) := by
  have hne : d.kfront ≠ bump d.krear := fun hc => hroom (h.full_iff.1 hc)
  have hpush : Ring.contents kbufferLen (Function.update d.kbuffer d.krear ch) d.kfront
      (bump d.krear) = d.pending ++ [ch] := by
    rw [bump_eq] at hne ⊢
    exact Ring.contents_push h.kfront h.krear hne
  rw [enqueue, if_pos hne]
  exact ⟨⟨h.kfront, bump_lt _⟩, hpush, rfl, fun hc => ⟨hne, Function.update_of_ne hc ..⟩⟩

/-! ## What a scancode stands for -/

/-- The byte a scancode stands for, if any: a make code of a key that is none of the control keys has
one in the character set, 0 for a key without a character. -/
def Keymap.typed (layout : Keymap) (scancode : Byte) : Option Byte :=
  if scancode < 0x80 ∧ ∀ i ∈ List.range 8, layout.controlMap.getD i 0 ≠ scancode then
    some (layout.charset.getD scancode.toNat 0)
  else none

theorem released_iff : ∀ scancode : Byte, scancode &&& releasedMask ≠ 0 ↔ ¬ scancode < 0x80 := by
  decide +kernel

theorem Keymap.controlIndex_eq_none {layout : Keymap} {n : Nat} {key : Byte} :
    layout.controlIndex n key = none ↔ ∀ i ∈ List.range n, layout.controlMap.getD i 0 ≠ key := by
  simp only [Keymap.controlIndex, List.find?_eq_none, beq_iff_eq, ne_eq]

/-- A scancode that stands for no byte changes the controls at most. -/
theorem keyboardHandler_of_none {scancode : Byte} (h : d.currLayout.typed scancode = none) :
    ∃ controls, keyboardHandler d scancode = d.setControls controls := by
  unfold keyboardHandler
  dsimp only
  by_cases hrel : scancode &&& releasedMask ≠ 0
  · rw [if_pos hrel]
    cases d.currLayout.controlIndex 5 (scancode &&& ~~~releasedMask) with
    | some i => exact ⟨_, rfl⟩
    | none => exact ⟨d.currLayout.controls, rfl⟩
  · rw [if_neg hrel]
    cases hi : d.currLayout.controlIndex 8 scancode with
    | some i =>
      dsimp only
      split
      · exact ⟨_, rfl⟩
      · exact ⟨_, rfl⟩
    | none =>
      have hmake := not_not.1 (mt (released_iff scancode).2 hrel)
      rw [Keymap.typed, if_pos ⟨hmake, Keymap.controlIndex_eq_none.1 hi⟩] at h
      exact absurd h (Option.some_ne_none _)

/-- One that stands for a byte puts it into the queue. -/
theorem keyboardHandler_of_some {scancode : Byte} (h : d.currLayout.typed scancode = some ch) :
    keyboardHandler d scancode = enqueue d ch := by
  unfold Keymap.typed at h
  split at h
  · next hmake =>
    obtain rfl := Option.some.inj h
    unfold keyboardHandler
    dsimp only
    rw [if_neg (mt (released_iff scancode).1 (not_not.2 hmake.1)),
      Keymap.controlIndex_eq_none.2 hmake.2]
  · cases h

end Hurlex.Kboard
