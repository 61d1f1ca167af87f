import Hurlex.Types
import Hurlex.Kernel.PrintkRender

/-!
# The trace of a panic (`arch/i386/debug/debug.c`)

`print_stack_trace` follows the saved `ebp`s up to the one that is zero, and prints a line for each
frame: the return address, and the name of the function it is in. `elf_lookup_symbol` finds the name in
the symbol table the boot loader left, and returns `NULL` if the address is in no function. Nobody asks
before `vsprintf` takes the length of the string.

A thread's frames end in `kthread_entry`, a label of an assembler file. Its symbol is not that of a
function, so each trace that reaches the bottom of a stack looks up an address of this kind.

* **`elfLookupSymbol_ne_zero_iff`**: which addresses have a name.
* **`printStackTrace_chain`**: the trace of a finite chain of frames.
* **`printsTrace_iff`**: which traces are printed without a `NULL`.

Out of scope: what `vsprintf` reads at address 0, and what happens after the trace.
-/

namespace Hurlex.StackTrace

open Printk

/-- `elf_symbol_t`, less `other` and `shndx`. -/
structure ElfSymbol where
  name : Word
  value : Word
  size : Word
  info : Byte

/-- `sizeof(elf_symbol_t)`. -/
def sizeofElfSymbol : Nat := 16

/-- `elf_t`, less the size of the string table. -/
structure Elf where
  symtab : Nat → ElfSymbol
  symtabsz : Word
  strtab : Word

/-- `ELF32_ST_TYPE`. -/
def stType (info : Byte) : Byte := info &&& 0xf

/-- The loop of `elf_lookup_symbol` from symbol `i` on, with `n` symbols left. -/
def lookupFrom (addr : Word) (elf : Elf) : Nat → Nat → Word
  | 0, _ => 0
  | n + 1, i =>
    let sym := elf.symtab i
    if stType sym.info ≠ 2 then lookupFrom addr elf n (i + 1)
    else if sym.value ≤ addr ∧ addr < sym.value + sym.size then elf.strtab + sym.name
    else lookupFrom addr elf n (i + 1)

/-- The number of symbols. -/
def Elf.count (elf : Elf) : Nat := elf.symtabsz.toNat / sizeofElfSymbol

/-- `elf_lookup_symbol`: a pointer to the name, or `NULL`. -/
def elfLookupSymbol (addr : Word) (elf : Elf) : Word := lookupFrom addr elf elf.count 0

/-- A call of `printk` and what it prints. -/
structure Line where
  eip : Word
  name : Word
  text : List Byte

def traceFormat : List Byte := "   [0x%x] %s\n".toList.map ch

/-- The arguments behind the format. -/
def traceArgs (eip name : Word) (i : Nat) : Word := if i = 0 then eip else name

/-- The loop of `print_stack_trace`, with the stack in `mem` and the string at `p` as `strAt p`. -/
def printStackTrace (mem : Word → Word) (strAt : Word → List Byte) (elf : Elf) :
    Nat → Word → Kern (List Line)
  | 0, _ => .error .noReturn
  | fuel + 1, ebp =>
    if ebp = 0 then .ok []
    else
      let eip := mem (ebp + 4)
      let name := elfLookupSymbol eip elf
      match vsprintf (traceArgs eip name) strAt traceFormat with
      | none => .error .noReturn
      | some text => do
        let lines ← printStackTrace mem strAt elf fuel (mem ebp)
        return ⟨eip, name, text⟩ :: lines

/-! ## The symbol table -/

/-- The symbol is that of a function `addr` is in. -/
def ElfSymbol.Holds (addr : Word) (sym : ElfSymbol) : Prop :=
  stType sym.info = 2 ∧ sym.value ≤ addr ∧ addr < sym.value + sym.size

instance (addr : Word) (sym : ElfSymbol) : Decidable (sym.Holds addr) :=
  inferInstanceAs (Decidable (_ ∧ _ ∧ _))

/-- `addr` is in a function, and the name of the first one it is in is a string. -/
def Named (addr : Word) (elf : Elf) : Prop :=
  ∃ i < elf.count, (elf.symtab i).Holds addr ∧ (∀ j < i, ¬ (elf.symtab j).Holds addr) ∧
    elf.strtab + (elf.symtab i).name ≠ 0

variable {mem : Word → Word} {strAt : Word → List Byte} {elf : Elf} {addr ebp : Word}
  {frames : List Word}

theorem lookupFrom_succ (n i : Nat) : lookupFrom addr elf (n + 1) i =
    if (elf.symtab i).Holds addr then elf.strtab + (elf.symtab i).name
    else lookupFrom addr elf n (i + 1) := by
  rw [lookupFrom]
  by_cases htype : stType (elf.symtab i).info = 2
  · rw [if_neg (not_not_intro htype)]
    exact if_congr (and_iff_right htype).symm rfl rfl
  · rw [if_pos htype, if_neg fun h => htype h.1]

theorem lookupFrom_ne_zero_iff (n i : Nat) : lookupFrom addr elf n i ≠ 0 ↔
    ∃ k < n, (elf.symtab (i + k)).Holds addr ∧ (∀ j < k, ¬ (elf.symtab (i + j)).Holds addr) ∧
      elf.strtab + (elf.symtab (i + k)).name ≠ 0 := by
  induction n generalizing i with
  | zero =>
    refine iff_of_false (fun h => h rfl) ?_
    rintro ⟨k, hk, -⟩
    exact Nat.not_lt_zero k hk
  | succ n ih =>
    rw [lookupFrom_succ]
    by_cases hi : (elf.symtab i).Holds addr
    · rw [if_pos hi]
      constructor
      · intro h
        refine ⟨0, Nat.succ_pos n, hi, fun j hj => absurd hj (Nat.not_lt_zero j), h⟩
      · rintro ⟨k, -, -, hfirst, hname⟩
        -- the first function it is in is this one
        have hk : k = 0 := by
          by_contra hk
          exact hfirst 0 (Nat.pos_of_ne_zero hk) hi
        subst hk
        exact hname
    · rw [if_neg hi, ih]
      constructor
      · rintro ⟨k, hk, hholds, hfirst, hname⟩
        refine ⟨k + 1, Nat.succ_lt_succ hk, ?_, fun j hj => ?_, ?_⟩
        · rwa [Nat.add_right_comm] at hholds
        · cases j with
          | zero => exact hi
          | succ j =>
            have hno := hfirst j (Nat.lt_of_succ_lt_succ hj)
            rwa [Nat.add_right_comm] at hno
        · rwa [Nat.add_right_comm] at hname
      · rintro ⟨k, hk, hholds, hfirst, hname⟩
        cases k with
        | zero => exact absurd hholds hi
        | succ k =>
          refine ⟨k, Nat.lt_of_succ_lt_succ hk, ?_, fun j hj => ?_, ?_⟩
          · rwa [Nat.add_right_comm]
          · rw [Nat.add_right_comm]
            exact hfirst (j + 1) (Nat.succ_lt_succ hj)
          · rwa [Nat.add_right_comm]

/-- **Which addresses have a name.** -/
theorem elfLookupSymbol_ne_zero_iff : elfLookupSymbol addr elf ≠ 0 ↔ Named addr elf := by
  rw [elfLookupSymbol, lookupFrom_ne_zero_iff]
  simp only [Nat.zero_add]
  rfl

/-! ## The frames -/

/-- The frames from the one at `ebp` on, up to one that has saved a zero. -/
inductive Chain (mem : Word → Word) : Word → List Word → Prop
  | nil : Chain mem 0 []
  | cons {ebp : Word} {frames : List Word} (hebp : ebp ≠ 0) (h : Chain mem (mem ebp) frames) :
      Chain mem ebp (ebp :: frames)

/-- The return address of a frame. -/
def returnAddr (mem : Word → Word) (frame : Word) : Word := mem (frame + 4)

/-- `traceFormat`, item by item. -/
def traceItems : List Item :=
  let space : Item := .literal ⟨ch ' ', by decide⟩
  [space, space, space, .literal ⟨ch '[', by decide⟩, .literal ⟨ch '0', by decide⟩,
    .literal ⟨ch 'x', by decide⟩, .directive ⟨[], .absent, none, none, .x⟩,
    .literal ⟨ch ']', by decide⟩, space, .directive ⟨[], .absent, none, none, .s⟩,
    .literal ⟨ch '\n', by decide⟩]

theorem formatOf_traceItems : formatOf traceItems = traceFormat := by decide

theorem traceItems_plain : ∀ d, Item.directive d ∈ traceItems → ¬ d.Starred := by
  intro d hd hstar
  simp only [traceItems, List.mem_cons, reduceCtorEq, Item.directive.injEq, List.not_mem_nil,
    false_or, or_false] at hd
  rcases hd with rfl | rfl <;> rcases hstar with h | h <;> cases h

/-- `%x`. -/
def hexText (eip : Word) : List Byte := (number eip 16 (-1) (-1) { small := true }).getD []

/-- `%s`. -/
def nameText (name : List Byte) : List Byte :=
  column false (-1) (int name.length) (name.take (int name.length).toNat)

/-- A line with the given address and name. -/
def lineText (hex name : List Byte) : List Byte :=
  [' ', ' ', ' ', '[', '0', 'x'].map ch ++ hex ++ [']', ' '].map ch ++ name ++ [ch '\n']

theorem render_hex (eip name : Word) :
    Directive.render (traceArgs eip name) strAt 0 ⟨[], .absent, none, none, .x⟩ =
      (hexText eip, 1) := rfl

theorem render_name (eip name : Word) :
    Directive.render (traceArgs eip name) strAt 1 ⟨[], .absent, none, none, .s⟩ =
      (nameText (strAt name), 2) := by
  have hlen : printedLength (-1) (strAt name) = int (strAt name).length := if_pos (by decide)
  show (column false (-1) (printedLength (-1) (strAt name))
    ((strAt name).take (printedLength (-1) (strAt name)).toNat), 2) = _
  rw [hlen]
  rfl

/-- The line is what the format stands for, whatever the two texts are. -/
theorem flatMap_trace (hex name : List Byte) :
    List.flatMap Prod.fst [([ch ' '], 0), ([ch ' '], 0), ([ch ' '], 0), ([ch '['], 0), ([ch '0'], 0),
      ([ch 'x'], 0), (hex, 1), ([ch ']'], 1), ([ch ' '], 1), (name, 2), ([ch '\n'], 2)] =
      lineText hex name := by
  simp only [lineText, List.flatMap_cons, List.flatMap_nil, List.append_assoc, List.map_cons,
    List.map_nil, List.cons_append, List.nil_append]

/-- **What `vsprintf` makes of the format of a line.** -/
theorem vsprintf_trace (strAt : Word → List Byte) (eip name : Word) :
    vsprintf (traceArgs eip name) strAt traceFormat =
      some (lineText (hexText eip) (nameText (strAt name))) := by
  rw [← formatOf_traceItems, (renders_plain _ strAt traceItems_plain).string, ← flatMap_trace]
  simp only [traceItems, rendering, Item.render, render_hex, render_name]

theorem printStackTrace_succ (hebp : ebp ≠ 0) (fuel : Nat) :
    printStackTrace mem strAt elf (fuel + 1) ebp = do
      let name := elfLookupSymbol (returnAddr mem ebp) elf
      let lines ← printStackTrace mem strAt elf fuel (mem ebp)
      return ⟨returnAddr mem ebp, name,
        lineText (hexText (returnAddr mem ebp)) (nameText (strAt name))⟩ :: lines := by
  rw [printStackTrace, if_neg hebp]
  dsimp only
  rw [vsprintf_trace]
  rfl

/-- The line a frame gets. -/
def lineOf (mem : Word → Word) (strAt : Word → List Byte) (elf : Elf) (frame : Word) : Line :=
  let eip := returnAddr mem frame
  let name := elfLookupSymbol eip elf
  ⟨eip, name, lineText (hexText eip) (nameText (strAt name))⟩

/-- **The trace of a finite chain**: a line for each frame. -/
theorem printStackTrace_chain (h : Chain mem ebp frames) {fuel : Nat}
    (hfuel : frames.length < fuel) :
    printStackTrace mem strAt elf fuel ebp = .ok (frames.map (lineOf mem strAt elf)) := by
  induction h generalizing fuel with
  | nil =>
    obtain ⟨f, rfl⟩ := Nat.exists_eq_succ_of_ne_zero (Nat.ne_zero_of_lt hfuel)
    rfl
  | cons hebp _ ih =>
    obtain ⟨f, rfl⟩ := Nat.exists_eq_succ_of_ne_zero (Nat.ne_zero_of_lt hfuel)
    rw [printStackTrace_succ hebp, ih (Nat.lt_of_succ_lt_succ hfuel)]
    rfl

/-- The trace ends, with a line for each frame, and no line is printed with `NULL` for the name. -/
def PrintsTrace (mem : Word → Word) (strAt : Word → List Byte) (elf : Elf) (ebp : Word)
    (frames : List Word) : Prop :=
  ∀ fuel, frames.length < fuel → ∃ lines, printStackTrace mem strAt elf fuel ebp = .ok lines ∧
    lines.map Line.eip = frames.map (returnAddr mem) ∧
    ∀ line ∈ lines, vsprintf (traceArgs line.eip line.name) strAt traceFormat = some line.text ∧
      line.name ≠ 0

/-- **Which traces are printed without a `NULL`**: those whose addresses are all in functions. -/
theorem printsTrace_iff (h : Chain mem ebp frames) :
    PrintsTrace mem strAt elf ebp frames ↔ ∀ frame ∈ frames, Named (returnAddr mem frame) elf := by
  constructor
  · intro hprints frame hframe
    obtain ⟨lines, hlines, -, hnames⟩ := hprints _ (Nat.lt_succ_self _)
    rw [printStackTrace_chain h (Nat.lt_succ_self _)] at hlines
    obtain rfl := Except.ok.inj hlines
    have hname := (hnames _ (List.mem_map_of_mem hframe)).2
    exact elfLookupSymbol_ne_zero_iff.1 hname
  · intro hnamed fuel hfuel
    refine ⟨_, printStackTrace_chain h hfuel, ?_, fun line hline => ?_⟩
    · rw [List.map_map]
      rfl
    · obtain ⟨frame, hframe, rfl⟩ := List.mem_map.1 hline
      exact ⟨vsprintf_trace .., elfLookupSymbol_ne_zero_iff.2 (hnamed frame hframe)⟩

/-! ## The bottom of a thread's stack -/

/-- A kernel with one function, from `0xC0101000` on, and `kthread_entry` behind it. -/
def oneFunction : Elf where
  symtab i := if i = 0 then ⟨1, 0xC0101000, 0x100, 0x12⟩ else ⟨9, 0xC0102000, 0, 0x10⟩
  symtabsz := 32
  strtab := 0xC0200000

/-- Frames at `0xC0300000` and `0xC0300100`: a call in the function, and the `call ebx` of
`kthread_entry`. -/
def twoFrames (p : Word) : Word :=
  if p = 0xC0300000 then 0xC0300100
  else if p = 0xC0300004 then 0xC0101010
  else if p = 0xC0300104 then 0xC0102003
  else 0

theorem chain_twoFrames : Chain twoFrames 0xC0300000 [0xC0300000, 0xC0300100] :=
  .cons (by decide) (.cons (by decide) .nil)

theorem printsTrace_iff_twoFrames :
    PrintsTrace twoFrames (fun _ => []) oneFunction 0xC0300000 [0xC0300000, 0xC0300100] ↔
      ∀ frame ∈ [0xC0300000, 0xC0300100], Named (returnAddr twoFrames frame) oneFunction :=
  printsTrace_iff chain_twoFrames

/-- The last line of that trace has no name. -/
theorem not_printsTrace : ¬ ∀ (mem : Word → Word) (strAt : Word → List Byte) (elf : Elf)
    (ebp : Word) (frames : List Word), Chain mem ebp frames →
    PrintsTrace mem strAt elf ebp frames := by
  intro h
  obtain ⟨lines, hlines, -, hnames⟩ := h _ (fun _ => []) oneFunction _ _ chain_twoFrames 3 (by decide)
  rw [printStackTrace_chain chain_twoFrames (by decide)] at hlines
  obtain rfl := Except.ok.inj hlines
  have hlast := (hnames _ (.tail _ (.head _))).2
  revert hlast
  decide

end Hurlex.StackTrace
