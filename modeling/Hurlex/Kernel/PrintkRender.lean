import Hurlex.Kernel.PrintkFormat

/-!
# `vsprintf` against its format language (`kernel/printk.c`, lines 60 to 321)

A pass of the loop of `vsprintf` reads a directive field by field, in the order of `Directive.before`,
and hands what it read to the conversion. Each field has one lemma, which asks of the bytes that follow
only that the next field begins there (`Ends`).

* **`renders_iff`**: `vsprintf` produces what a format stands for exactly if no directive of it uses
  `*`. At a `*` it reads the argument but leaves `format` where it is, so that the directive ends there
  and the rest of it is copied.
* `legible`: what formats without `*` stand for, conversion by conversion, in terms of columns and
  digits.
-/

namespace Hurlex.Printk

/-! ## Reading the fields -/

theorem int_int_mul_add (i d : Int) : int (int i * 10 + d) = int (i * 10 + d) := by
  unfold int
  rw [← Int.bmod_add_bmod, Int.bmod_mul_bmod, Int.bmod_add_bmod]

theorem isDigit_digitChar (d : Fin 10) : isDigit (digitChar d) = true := by
  decide +revert

theorem digitChar_toNat (d : Fin 10) : (digitChar d).toNat = 48 + d.val := by
  decide +revert

theorem skipAtoi_digits {tail : List Byte} (ht : isDigit (peek tail) = false) :
    ∀ (ds : List (Fin 10)) (i : Nat),
      skipAtoi (int i) (digitText ds ++ tail) =
        (int (ds.foldl (fun n d => n * 10 + d.val) i : Nat), tail)
  | [], i => by
    cases tail with
    | nil => rfl
    | cons c tail =>
      have hc : isDigit c = false := ht
      simp [digitText, skipAtoi, hc]
  | d :: ds, i => by
    have ih := skipAtoi_digits ht ds (i * 10 + d.val)
    have hi : int (int i * 10 + (digitChar d).toNat - (ch '0').toNat) =
        int (i * 10 + d.val : Nat) := by
      have h48 : (ch '0').toNat = 48 := rfl
      have hd : int i * 10 + (digitChar d).toNat - (ch '0').toNat = int i * 10 + d.val := by
        rw [digitChar_toNat, h48]
        omega
      rw [hd, int_int_mul_add]
      push_cast
      rfl
    simp only [digitText, List.map_cons, List.cons_append, skipAtoi, isDigit_digitChar, if_true, hi]
    exact ih

theorem skipAtoi_decimal {tail : List Byte} (ht : isDigit (peek tail) = false)
    (ds : List (Fin 10)) : skipAtoi 0 (digitText ds ++ tail) = (int (decimal ds), tail) :=
  skipAtoi_digits ht ds 0

theorem scanFlags_flags {tail : List Byte} (ht : ∀ flags, setFlag (peek tail) flags = none) :
    ∀ (fs : List Flag) (flags : Flags) (c : Byte),
      scanFlags flags (c :: (fs.map Flag.char ++ tail)) = some (fs.foldl Flag.set flags, tail)
  | [], flags, c => by simp [scanFlags, ht]
  | f :: fs, flags, c => by
    have hf : setFlag f.char flags = some (Flag.set flags f) := by cases f <;> rfl
    simp only [List.map_cons, List.cons_append, scanFlags, peek, hf, List.foldl_cons]
    exact scanFlags_flags ht fs (Flag.set flags f) f.char

/-- A character that ends the flags and the width. -/
structure Ends (c : Byte) : Prop where
  noFlag : ∀ flags, setFlag c flags = none
  noDigit : isDigit c = false
  noStar : c ≠ ch '*'

theorem Conversion.ends (conv : Conversion) : Ends conv.char ∧ conv.char ≠ ch '.' := by
  cases conv <;> exact ⟨⟨fun _ => rfl, rfl, by decide⟩, by decide⟩

theorem Qualifier.ends (q : Qualifier) : Ends q.char ∧ q.char ≠ ch '.' := by
  cases q <;> exact ⟨⟨fun _ => rfl, rfl, by decide⟩, by decide⟩

theorem ends_dot : Ends (ch '.') := ⟨fun _ => rfl, rfl, by decide⟩

theorem Directive.qualified_ends (d : Directive) (tail : List Byte) :
    Ends (peek (d.qualified tail)) ∧ peek (d.qualified tail) ≠ ch '.' := by
  unfold Directive.qualified
  cases d.qualifier with
  | none => exact d.conversion.ends
  | some q => exact q.ends

theorem Directive.dotted_ends (d : Directive) (tail : List Byte) : Ends (peek (d.dotted tail)) := by
  unfold Directive.dotted
  rcases d.precision with _ | ds | _
  · exact (d.qualified_ends tail).1
  · exact ends_dot
  · exact ends_dot

theorem setFlag_first (first : Fin 9) (flags : Flags) :
    setFlag (digitChar first.succ) flags = none := by
  have h : ∀ first : Fin 9,
      digitChar first.succ ∉ [ch '-', ch '+', ch ' ', ch '#', ch '0'] := by decide
  have := h first
  simp only [List.mem_cons, List.not_mem_nil, or_false, not_or] at this
  obtain ⟨h1, h2, h3, h4, h5⟩ := this
  simp only [setFlag, if_neg h1, if_neg h2, if_neg h3, if_neg h4, if_neg h5]

theorem Width.no_flag (w : Width) {tail : List Byte} (ht : Ends (peek tail)) (flags : Flags) :
    setFlag (peek (w.text ++ tail)) flags = none := by
  cases w with
  | absent => exact ht.noFlag flags
  | star => rfl
  | digits first rest => exact setFlag_first first flags

section Scanning

variable (args : Nat → Word) (strAt : Word → List Byte)

theorem scanWidth_width {w : Width} (hw : w ≠ .star) {tail : List Byte} (ht : Ends (peek tail))
    (flags : Flags) (next : Nat) :
    scanWidth args { format := w.text ++ tail, flags, next } =
      { format := tail, flags, fieldWidth := (w.value (args next)).1, next } := by
  cases w with
  | absent => simp [scanWidth, Width.text, Width.value, ht.noDigit, ht.noStar]
  | star => exact absurd rfl hw
  | digits first rest =>
    have hd : isDigit (peek (digitText (first.succ :: rest) ++ tail)) = true :=
      isDigit_digitChar first.succ
    simp only [scanWidth, Width.text, Width.value, hd, if_true, skipAtoi_decimal ht.noDigit]

theorem scanDigits_digits (ds : List (Fin 10)) {tail : List Byte} (ht : Ends (peek tail))
    (s : Scan) (hs : s.precision = -1) :
    scanDigits args { s with format := digitText ds ++ tail } =
      { s with format := tail, precision := if ds = [] then -1 else int (decimal ds) } := by
  cases ds with
  | nil => simp [scanDigits, digitText, ht.noDigit, ht.noStar, ← hs]
  | cons a ds =>
    have hd : isDigit (peek (digitText (a :: ds) ++ tail)) = true := isDigit_digitChar a
    simp only [scanDigits, hd, if_true, skipAtoi_decimal ht.noDigit, reduceCtorEq, if_false]

theorem scanPrecision_precision {d : Directive} (hd : d.precision ≠ some .star)
    (tail : List Byte) (s : Scan) (hs : s.precision = -1) (arg : Word) :
    scanPrecision args { s with format := d.dotted tail } =
      some { s with format := d.qualified tail, precision := precisionValue arg d.precision } := by
  obtain ⟨he, hdot⟩ := d.qualified_ends tail
  rcases hp : d.precision with _ | ds | _
  · simp only [Directive.dotted, hp, Option.elim, List.nil_append, scanPrecision, if_neg hdot,
      precisionValue, ← hs]
  · have hf : d.dotted tail = ch '.' :: (digitText ds ++ d.qualified tail) := by
      simp [Directive.dotted, hp, Precision.text]
    have hz : int (decimal []) = 0 := rfl
    simp only [hf, scanPrecision, peek, if_true, advance, Option.bind_eq_bind, Option.bind_some,
      scanDigits_digits args ds he s hs, precisionValue]
    by_cases hds : ds = []
    · simp [hds, hz]
    · simp only [if_neg hds]
      split <;> simp [max_def] <;> omega
  · exact absurd hp hd

theorem scanQualifier_qualifier (d : Directive) (tail : List Byte) (s : Scan) :
    scanQualifier { s with format := d.qualified tail } =
      some { s with format := d.conversion.char :: tail } := by
  unfold Directive.qualified
  rcases d.qualifier with _ | q
  · have h : ∀ conv : Conversion,
        ¬ (conv.char = ch 'h' ∨ conv.char = ch 'l' ∨ conv.char = ch 'L') := by
      intro conv
      cases conv <;> decide
    exact if_neg (h d.conversion)
  · have h : q.char = ch 'h' ∨ q.char = ch 'l' ∨ q.char = ch 'L' := by cases q <;> decide
    exact if_pos h

/-- A directive without `*` is read as it is written. -/
theorem scan_directive {d : Directive} (hd : ¬ d.Starred) (next : Nat) (tail : List Byte)
    (arg : Word) :
    scan args next (d.before tail) =
      some
        { format := d.conversion.char :: tail
          flags := d.flags.foldl Flag.set {}
          fieldWidth := (d.width.value (args next)).1
          precision := precisionValue arg d.precision
          next } := by
  obtain ⟨hw, hp⟩ := not_or.mp hd
  have he := d.dotted_ends tail
  simp only [scan, Directive.before, scanFlags_flags (d.width.no_flag he), Option.bind_eq_bind,
    Option.bind_some, scanWidth_width args hw he]
  have h := scanPrecision_precision args hp tail
    { format := d.dotted tail, flags := d.flags.foldl Flag.set {}, next
      fieldWidth := (d.width.value (args next)).1 } rfl arg
  dsimp only at h
  rw [h, Option.bind_some]
  exact scanQualifier_qualifier d tail
    { format := d.qualified tail, flags := d.flags.foldl Flag.set {}, next
      fieldWidth := (d.width.value (args next)).1
      precision := precisionValue arg d.precision }

/-! ## The conversions -/

theorem preDec_eq (c : Byte) (n : Int) :
    preDec c n = (List.replicate (int (n - 1)).toNat c, min (int (n - 1)) 0) := by
  rw [preDec, fill_eq, Int.sub_zero]

theorem convC_eq (flags : Flags) (fieldWidth : Int) (arg : Word) :
    convC flags fieldWidth arg =
      column flags.left (int (fieldWidth - 1)) 0 [arg.setWidth 8] := by
  unfold convC column blanks
  cases flags.left with
  | true => simp only [Bool.not_true, Bool.false_eq_true, if_false, if_true, preDec_eq,
      List.nil_append, Int.sub_zero]
  | false => simp only [Bool.not_false, Bool.false_eq_true, if_false, if_true, preDec_eq,
      Int.sub_zero]

theorem convS_eq (flags : Flags) (fieldWidth precision : Int) (s : List Byte) :
    convS flags fieldWidth precision s =
      column flags.left fieldWidth (printedLength precision s)
        (s.take (printedLength precision s).toNat) := by
  have hlen : (if precision < 0 then int s.length
      else if precision < int s.length then precision else int s.length) =
        printedLength precision s := by
    unfold printedLength
    split
    · rfl
    · split <;> omega
  unfold convS column blanks
  dsimp only
  rw [hlen]
  cases flags.left with
  | true => simp only [Bool.not_true, Bool.false_eq_true, if_false, if_true, postDec, fill_eq,
      List.nil_append]
  | false => simp only [Bool.not_false, Bool.false_eq_true, if_false, if_true, postDec, fill_eq]

/-- In the range of the counters a column is as wide as it should be. -/
theorem column_eq {left : Bool} {width len : Int} {text : List Byte} (hw : -2 ^ 31 < width)
    (h0 : 0 ≤ len) (hlen : len ≤ 2 ^ 31) :
    column left width len text =
      if left then text ++ blanks (width - len) else blanks (width - len) ++ text := by
  have hnone : blanks (int (min width len - 1) - len) = [] := by
    rw [int_of_bounds (by omega) (by omega), blanks, Int.toNat_of_nonpos (by omega),
      List.replicate_zero]
  rw [column, hnone, List.append_nil]

theorem number_some (num : Word) {base : Nat} (h2 : 2 ≤ base) (h36 : base ≤ 36)
    (size precision : Int) (type : Flags) :
    ∃ text, number num base size precision type = some text :=
  ⟨_, dif_neg (by omega)⟩

theorem convP_some (flags : Flags) (fieldWidth precision : Int) (arg : Word) :
    ∃ text, convP flags fieldWidth precision arg = some text := by
  unfold convP
  split
  · exact number_some arg (by omega) (by omega) ..
  · exact number_some arg (by omega) (by omega) ..

/-- The conversions of numbers have a base `number` takes. -/
theorem Conversion.numeral_base {conv : Conversion} {flags type : Flags} {width size : Int}
    {base : Nat} (h : conv.numeral flags width = some (base, size, type)) :
    2 ≤ base ∧ base ≤ 36 := by
  cases conv with
  | c | s | percent => cases h
  | p =>
    by_cases hw : width = -1
    · rw [Conversion.numeral, if_pos hw] at h
      cases h
      decide
    · rw [Conversion.numeral, if_neg hw] at h
      cases h
      decide
  | d | i | o | u | x | X | b =>
    cases h
    decide

theorem convert_conversion (conv : Conversion) (written : Nat) (tail : List Byte) (s : Scan) :
    convert args strAt written { s with format := conv.char :: tail } =
      some
        { text := conv.render strAt s.flags s.fieldWidth s.precision (args s.next)
          next := s.next + conv.taken
          format := tail } := by
  have hn (base : Nat) (h2 : 2 ≤ base) (h36 : base ≤ 36) (size : Int) (flags : Flags) :=
    number_some (args s.next) h2 h36 size s.precision flags
  cases conv with
  | c =>
    simp +decide [convert, Conversion.char, Conversion.render, Conversion.numeral,
      Conversion.taken, peek, advance, convC_eq]
  | s =>
    simp +decide [convert, Conversion.char, Conversion.render, Conversion.numeral,
      Conversion.taken, peek, advance, convS_eq]
  | percent => rfl
  | p =>
    by_cases hw : s.fieldWidth = -1
    · obtain ⟨text, ht⟩ := hn 16 (by omega) (by omega) 8 { s.flags with zeropad := true }
      simp +decide [convert, convP, Conversion.char, Conversion.render, Conversion.numeral,
        Conversion.taken, peek, advance, hw, ht]
    · obtain ⟨text, ht⟩ := hn 16 (by omega) (by omega) s.fieldWidth s.flags
      simp +decide [convert, convP, Conversion.char, Conversion.render, Conversion.numeral,
        Conversion.taken, peek, advance, hw, ht]
  | d | i =>
    obtain ⟨text, ht⟩ := hn 10 (by omega) (by omega) s.fieldWidth { s.flags with sign := true }
    simp +decide [convert, Conversion.char, Conversion.render, Conversion.numeral,
      Conversion.taken, peek, advance, ht]
  | u =>
    obtain ⟨text, ht⟩ := hn 10 (by omega) (by omega) s.fieldWidth s.flags
    simp +decide [convert, Conversion.char, Conversion.render, Conversion.numeral,
      Conversion.taken, peek, advance, ht]
  | o =>
    obtain ⟨text, ht⟩ := hn 8 (by omega) (by omega) s.fieldWidth s.flags
    simp +decide [convert, Conversion.char, Conversion.render, Conversion.numeral,
      Conversion.taken, peek, advance, ht]
  | x =>
    obtain ⟨text, ht⟩ := hn 16 (by omega) (by omega) s.fieldWidth { s.flags with small := true }
    simp +decide [convert, Conversion.char, Conversion.render, Conversion.numeral,
      Conversion.taken, peek, advance, ht]
  | X =>
    obtain ⟨text, ht⟩ := hn 16 (by omega) (by omega) s.fieldWidth s.flags
    simp +decide [convert, Conversion.char, Conversion.render, Conversion.numeral,
      Conversion.taken, peek, advance, ht]
  | b =>
    obtain ⟨text, ht⟩ := hn 2 (by omega) (by omega) s.fieldWidth s.flags
    simp +decide [convert, Conversion.char, Conversion.render, Conversion.numeral,
      Conversion.taken, peek, advance, ht]

/-- A directive without `*` is rendered as it is written. -/
theorem pass_directive {d : Directive} (hd : ¬ d.Starred) (next written : Nat) (tail : List Byte) :
    pass args strAt next written (d.before tail) =
      some
        { text := (d.render args strAt next).1
          next := (d.render args strAt next).2
          format := tail } := by
  obtain ⟨hw, hp⟩ := not_or.mp hd
  have hwidth : d.width.taken = 0 ∧ (d.width.value (args next)).2 = false := by
    cases h : d.width with
    | absent => exact ⟨rfl, rfl⟩
    | digits first rest => exact ⟨rfl, rfl⟩
    | star => exact absurd h hw
  have hprec : precisionTaken d.precision = 0 := by
    rcases h : d.precision with _ | ds | _
    · rfl
    · rfl
    · exact absurd h hp
  have hpeek : ¬ peek (d.before tail) ≠ ch '%' := not_not.mpr rfl
  have hconv := convert_conversion args strAt d.conversion written tail
    { format := d.conversion.char :: tail, flags := d.flags.foldl Flag.set {}, next
      fieldWidth := (d.width.value (args next)).1
      precision := precisionValue (args next) d.precision }
  dsimp only at hconv
  simp only [pass, if_neg hpeek, scan_directive args hd next tail (args next), Option.bind_eq_bind,
    Option.bind_some, hconv, Directive.render, hwidth, hprec, Bool.or_false, Nat.add_zero]

/-! ## Where a directive uses `*` -/

theorem scanWidth_star (flags : Flags) (next : Nat) (tail : List Byte) :
    ∃ flags' fieldWidth, scanWidth args { format := ch '*' :: tail, flags, next } =
      { format := ch '*' :: tail, flags := flags', fieldWidth, next := next + 1 } := by
  by_cases h : (args next).toInt < 0
  · exact ⟨_, _, if_pos h⟩
  · exact ⟨_, _, if_neg h⟩

theorem scanPrecision_star (s : Scan) (tail : List Byte) :
    ∃ precision, scanPrecision args { s with format := ch '.' :: ch '*' :: tail } =
      some { s with format := ch '*' :: tail, precision, next := s.next + 1 } := by
  by_cases h : (args s.next).toInt < 0
  · exact ⟨0, congrArg some (if_pos h)⟩
  · exact ⟨_, congrArg some (if_neg h)⟩

/-- The scan of a directive that uses `*` ends at the first one, with its argument read. -/
theorem scan_starred {d : Directive} (hd : d.Starred) (next : Nat) (tail : List Byte) :
    ∃ flags fieldWidth precision rest, scan args next (d.before tail) =
      some { format := ch '*' :: rest, flags, fieldWidth, precision, next := next + 1 } := by
  have he := d.dotted_ends tail
  simp only [scan, Directive.before, scanFlags_flags (d.width.no_flag he), Option.bind_eq_bind,
    Option.bind_some]
  by_cases hw : d.width = .star
  · obtain ⟨flags, fieldWidth, h⟩ :=
      scanWidth_star args (d.flags.foldl Flag.set {}) next (d.dotted tail)
    simp only [hw, Width.text, List.singleton_append, h]
    exact ⟨_, _, _, _, rfl⟩
  · have hp : d.precision = some .star := hd.resolve_left hw
    have hf : d.dotted tail = ch '.' :: ch '*' :: d.qualified tail := by
      simp [Directive.dotted, hp, Precision.text]
    obtain ⟨precision, h⟩ := scanPrecision_star args
      { format := d.dotted tail, flags := d.flags.foldl Flag.set {}, next
        fieldWidth := (d.width.value (args next)).1 } (d.qualified tail)
    rw [← hf] at h
    dsimp only at h
    rw [scanWidth_width args hw he, h]
    exact ⟨_, _, _, _, rfl⟩

/-- **At a `*`** the directive ends: its argument is read, and the two characters are copied. -/
theorem pass_starred {d : Directive} (hd : d.Starred) (next written : Nat) (tail : List Byte) :
    ∃ format, pass args strAt next written (d.before tail) =
      some { text := [ch '%', ch '*'], next := next + 1, format } := by
  obtain ⟨flags, fieldWidth, precision, rest, h⟩ := scan_starred args hd next tail
  have hpeek : ¬ peek (d.before tail) ≠ ch '%' := not_not.mpr rfl
  refine ⟨rest, ?_⟩
  simp only [pass, if_neg hpeek, h, Option.bind_eq_bind, Option.bind_some]
  rfl

theorem render_starred {d : Directive} (hd : d.Starred) (next : Nat) :
    d.render args strAt next ≠ ([ch '%', ch '*'], next + 1) := by
  intro h
  have htaken : 1 ≤ d.width.taken + precisionTaken d.precision := by
    rcases hd with hw | hp
    · rw [hw]
      exact Nat.le_add_right 1 _
    · rw [hp]
      exact Nat.le_add_left 1 _
  obtain ⟨htext, hnext⟩ := Prod.mk.inj h
  by_cases hc : d.conversion = .percent
  · rw [hc] at htext
    have hlen : 1 = 2 := congrArg List.length htext
    omega
  · have hone : d.conversion.taken = 1 := by
      cases h : d.conversion <;> first | rfl | exact absurd h hc
    omega

/-! ## The whole format -/

theorem pass_literal (c : {c : Byte // c ≠ 0 ∧ c ≠ ch '%'}) (next written : Nat)
    (tail : List Byte) :
    pass args strAt next written (c.val :: tail) =
      some { text := [c.val], next, format := tail } :=
  if_pos c.property.2

/-- A pass over an item that does not use `*` does what the item stands for. -/
theorem pass_item {item : Item} (hi : ∀ d, item = .directive d → ¬ d.Starred)
    (items : List Item) (next written : Nat) :
    pass args strAt next written (formatOf (item :: items)) =
      some
        { text := (item.render args strAt next).1
          next := (item.render args strAt next).2
          format := formatOf items } := by
  cases item with
  | literal c => exact pass_literal args strAt c next written (formatOf items)
  | directive d => exact pass_directive args strAt (hi d rfl) next written (formatOf items)

theorem peek_formatOf (item : Item) (items : List Item) : peek (formatOf (item :: items)) ≠ 0 := by
  cases item with
  | literal c => exact c.property.1
  | directive d =>
    have h : ch '%' ≠ 0 := by decide
    exact h

/-- Every item has a character, so there are passes enough. -/
theorem length_le_formatOf : ∀ items : List Item, items.length ≤ (formatOf items).length
  | [] => Nat.le_refl 0
  | .literal c :: items => Nat.succ_le_succ (length_le_formatOf items)
  | .directive d :: items => by
    have ih := length_le_formatOf items
    simp only [formatOf, Directive.before, Directive.dotted, Directive.qualified,
      List.length_cons, List.length_append]
    omega

theorem passes_cons (item : Item) (items : List Item) (fuel next n : Nat) :
    passes args strAt (fuel + 1) next n (formatOf (item :: items)) =
      (pass args strAt next n (formatOf (item :: items))).bind fun q =>
        (passes args strAt fuel q.next (n + q.text.length) q.format).map fun qs => q :: qs := by
  conv_lhs => unfold passes
  simp only [if_neg (peek_formatOf item items), Option.bind_eq_bind, Option.map_eq_bind]
  rfl

theorem passes_plain : ∀ (items : List Item) (fuel next n : Nat), items.length ≤ fuel →
    (∀ d, Item.directive d ∈ items → ¬ d.Starred) →
    (passes args strAt fuel next n (formatOf items)).map written =
      some (rendering args strAt next items)
  | [], fuel, next, n, _, _ => by
    unfold passes
    rfl
  | item :: items, 0, _, _, hf, _ => absurd hf (Nat.not_succ_le_zero _)
  | item :: items, fuel + 1, next, n, hf, hd => by
    have hpass := @pass_item args strAt item
      (fun d h => hd d (h ▸ List.mem_cons_self)) items next n
    have ih := passes_plain items fuel (item.render args strAt next).2
      (n + (item.render args strAt next).1.length) (Nat.le_of_succ_le_succ hf)
      fun d h => hd d (List.mem_cons_of_mem _ h)
    obtain ⟨qs, hqs, hmap⟩ := Option.map_eq_some_iff.mp ih
    rw [passes_cons, hpass, Option.bind_some, hqs, rendering, ← hmap]
    rfl

/-- Passes that do what the format stands for never meet a `*`, whatever the fuel. -/
theorem plain_of_passes : ∀ (items : List Item) (fuel next n : Nat),
    (passes args strAt fuel next n (formatOf items)).map written =
      some (rendering args strAt next items) →
    ∀ d, Item.directive d ∈ items → ¬ d.Starred
  | [], _, _, _, _, d, hd => absurd hd List.not_mem_nil
  | item :: items, 0, next, n, h, _, _ => by
    unfold passes at h
    rw [if_neg (peek_formatOf item items)] at h
    cases h
  | item :: items, fuel + 1, next, n, h, d, hd => by
    obtain ⟨qs, hqs, hw⟩ := Option.map_eq_some_iff.mp h
    rw [passes_cons] at hqs
    obtain ⟨q, hq, hqs⟩ := Option.bind_eq_some_iff.mp hqs
    obtain ⟨qs', hqs', rfl⟩ := Option.map_eq_some_iff.mp hqs
    obtain ⟨hhead, htail⟩ := List.cons.inj hw
    -- the first item is plain, since a `*` would show in what its pass wrote
    have hplain : ∀ d, item = .directive d → ¬ d.Starred := by
      rintro d rfl hs
      obtain ⟨format, hstar⟩ := pass_starred args strAt hs next n (formatOf items)
      have hq' : q = { text := [ch '%', ch '*'], next := next + 1, format } :=
        Option.some.inj (hq.symm.trans hstar)
      rw [hq'] at hhead
      exact render_starred args strAt hs next hhead.symm
    have hq' := Option.some.inj (hq.symm.trans (pass_item args strAt hplain items next n))
    rw [hq'] at hqs'
    rcases List.mem_cons.mp hd with rfl | hmem
    · exact hplain d rfl
    · exact plain_of_passes items fuel (item.render args strAt next).2
        (n + (item.render args strAt next).1.length)
        ((congrArg (Option.map written) hqs').trans (congrArg some htail)) d hmem

theorem flatMap_written (qs : List Pass) :
    (written qs).flatMap Prod.fst = qs.flatMap Pass.text := by
  rw [written, List.flatMap_map]

/-- Without a `*` the string is what the format stands for. -/
theorem renders_plain {items : List Item} (h : ∀ d, Item.directive d ∈ items → ¬ d.Starred) :
    Renders args strAt items := by
  have hp := passes_plain args strAt items (formatOf items).length 0 0 (length_le_formatOf items) h
  obtain ⟨qs, hqs, hw⟩ := Option.map_eq_some_iff.mp hp
  refine ⟨hp, ?_⟩
  rw [← hw, flatMap_written]
  exact congrArg (Option.map fun qs => qs.flatMap Pass.text) hqs

theorem legible : Legible strAt where
  character flags width precision arg h1 h2 := by
    show column flags.left (int (width - 1)) 0 [arg.setWidth 8] = _
    rw [int_of_bounds (by omega) (by omega), column_eq (by omega) (by omega) (by omega),
      Int.sub_zero]
    rfl
  string flags width precision arg h1 h2 := by
    show column flags.left width (printedLength precision (strAt arg))
      ((strAt arg).take (printedLength precision (strAt arg)).toNat) = _
    generalize strAt arg = s at h2 ⊢
    have hint : int s.length = s.length := int_of_bounds (by omega) (by omega)
    have hlen : ∃ text, (if precision < 0 then s else s.take precision.toNat) = text ∧
        s.take (printedLength precision s).toNat = text ∧
        printedLength precision s = text.length := by
      refine ⟨_, rfl, ?_⟩
      unfold printedLength
      rw [hint]
      split
      · rw [Int.toNat_natCast, List.take_length]
        exact ⟨rfl, rfl⟩
      · rw [List.length_take]
        refine ⟨?_, by omega⟩
        rw [List.take_eq_take_iff]
        omega
    obtain ⟨text, htext, htake, hcount⟩ := hlen
    have hle : text.length ≤ s.length := htake ▸ List.length_take_le' ..
    rw [htext, htake, hcount, column_eq h1 (by omega) (by omega)]
    rfl
  number conv flags type width precision size arg base hc hs hp hroom := by
    obtain ⟨h2, h36⟩ := Conversion.numeral_base hc
    obtain ⟨text, ht, hf⟩ := number_formats arg h2 h36 type hs hp hroom
    unfold Conversion.render
    rw [hc]
    dsimp only
    rwa [ht, Option.getD_some]

/-- **`vsprintf` produces what the format stands for exactly when no directive takes its width or
its precision from an argument.** In the range of the counters that is plain padding and numbers that
can be read back. -/
theorem renders_iff (items : List Item) :
    (Renders args strAt items ↔ ∀ d, Item.directive d ∈ items → ¬ d.Starred) ∧ Legible strAt := by
  refine ⟨⟨fun h => ?_, fun h => renders_plain args strAt h⟩, legible strAt⟩
  exact plain_of_passes args strAt items (formatOf items).length 0 0 h.passes

end Scanning

/-- `%*d`. -/
def starWidth : Directive where
  flags := []
  width := .star
  precision := none
  qualifier := none
  conversion := .d

/-- For `%*d` the width is read and the three characters are copied; the number is never printed. -/
theorem not_renders :
    vsprintf (fun _ => 5) (fun _ => []) (formatOf [.directive starWidth]) =
      some [ch '%', ch '*', ch 'd'] ∧
    ¬ Renders (fun _ => 5) (fun _ => []) [.directive starWidth] := by
  refine ⟨by decide, fun h => ?_⟩
  exact plain_of_passes _ _ _ _ _ _ h.passes starWidth List.mem_cons_self (Or.inl rfl)

end Hurlex.Printk
