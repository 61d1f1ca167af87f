import Hurlex.Kernel.Printk
import Mathlib.Data.Nat.Digits.Lemmas

/-!
# What `number` prints

The text of `number` in its parts: blanks, the sign, the prefix, zeros, the digits, blanks. The five
loops that pad it share two counters, which each loop leaves one below where it stopped; a loop that
is entered with such a counter writes nothing, so at most one of the three that pad to the width
does (`pads_eq`). The digits come from the unsigned division of a signed variable, also of the one
value that has no positive counterpart.

**`number_formats`**: the width is kept, and the number can be read back. The lowest widths together
with the highest precisions are the exception: there the counter wraps on its way down
(`number_wraps`).
-/

namespace Hurlex.Printk

/-! ## The loops -/

theorem int_of_bounds {n : Int} (h₁ : -2 ^ 31 ≤ n) (h₂ : n < 2 ^ 31) : int n = n :=
  Int.bmod_eq_of_le (by omega) (by omega)

theorem fill_eq (lo : Int) (c : Byte) (n : Int) :
    fill lo c n = (List.replicate (n - lo).toNat c, min n lo) := by
  induction h : (n - lo).toNat generalizing n with
  | zero =>
    rw [fill, if_neg (by omega), Int.min_eq_left (by omega)]
    rfl
  | succ k ih =>
    rw [fill, if_pos (by omega), ih (n - 1) (by omega), List.replicate_succ]
    congr 1
    omega

theorem postDec_eq (lo : Int) (c : Byte) (n : Int) (h₁ : -2 ^ 31 < min n lo)
    (h₂ : min n lo < 2 ^ 31) :
    postDec lo c n = (List.replicate (n - lo).toNat c, min n lo - 1) := by
  rw [postDec, fill_eq, int_of_bounds (by omega) (by omega)]

/-! ## The digits -/

/-- The value of a character as a digit; 36 for a character that is none. -/
def digitValue (c : Byte) : Nat :=
  if isDigit c then c.toNat - (ch '0').toNat
  else if ch 'A' ≤ c && c ≤ ch 'Z' then c.toNat - (ch 'A').toNat + 10
  else if ch 'a' ≤ c && c ≤ ch 'z' then c.toNat - (ch 'a').toNat + 10
  else 36

theorem digitValue_digits (small : Bool) {v : Nat} (hv : v < 36) :
    digitValue ((if small then smallDigits else digits).getD v 0) = v := by
  have h : ∀ (small : Bool) (v : Fin 36),
      digitValue ((if small then smallDigits else digits).getD v.val 0) = v.val := by decide
  exact h small ⟨v, hv⟩

theorem map_tmpDigits (small : Bool) {base : Nat} (hb : 2 ≤ base) (h36 : base ≤ 36) (n : Nat) :
    (tmpDigits (if small then smallDigits else digits) base hb n).map digitValue =
      Nat.digits base n := by
  induction n using Nat.strong_induction_on with
  | _ n ih =>
    rw [tmpDigits]
    by_cases hn : n = 0
    · rw [if_pos hn, hn, Nat.digits_zero]
      rfl
    · have hpos := Nat.pos_of_ne_zero hn
      have hmod := Nat.mod_lt n (show 0 < base by omega)
      rw [if_neg hn, List.map_cons, digitValue_digits small (by omega),
        ih _ (Nat.div_lt_self hpos hb), Nat.digits_def' hb hpos]

/-! ## The parts -/

section Parts

variable (type : Flags) (num : Word) (base : Nat)

/-- `type` once `LEFT` has switched `ZEROPAD` off. -/
def cleared : Flags := if type.left then { type with zeropad := false } else type

/-- The number is printed as a negative one. -/
def negative : Bool := type.sign && num.toInt < 0

/-- `sign`. -/
def signChar : Byte :=
  if negative type num then ch '-' else if type.plus then ch '+'
  else if type.space then ch ' ' else 0

def signText : List Byte := if signChar type num ≠ 0 then [signChar type num] else []

def prefixText : List Byte :=
  if type.special then
    if base = 8 then [ch '0']
    else if base = 16 then [ch '0', (if type.small then smallDigits else digits).getD 33 0]
    else []
  else []

/-- `size` without the sign and the prefix. -/
def room (size : Int) : Int :=
  let size := if signChar type num ≠ 0 then int (size - 1) else size
  if type.special then
    if base = 16 then int (size - 2) else if base = 8 then int (size - 1) else size
  else size

/-- `tmp`, the last digit first. -/
def tmpText (hb : 2 ≤ base) : List Byte :=
  let num := if negative type num then -num else num
  if num = 0 then [ch '0']
  else tmpDigits (if type.small then smallDigits else digits) base hb num.toNat

/-- The three loops that pad to the width. -/
def pads (size : Int) : List Byte × List Byte × List Byte :=
  let c := if type.zeropad then ch '0' else ch ' '
  let blanks := if !(type.zeropad || type.left) then postDec 0 (ch ' ') size else ([], size)
  let zeros := if !type.left then postDec 0 c blanks.2 else ([], blanks.2)
  let tail := postDec 0 (ch ' ') zeros.2
  (blanks.1, zeros.1, tail.1)

/-- The value that is printed. -/
def magnitude : Nat := if type.sign then num.toInt.natAbs else num.toNat

/-- The number of its digits, one for 0. -/
def digitCount (v : Nat) : Nat := max 1 (Nat.digits base v).length

end Parts

variable {type : Flags} {num : Word} {base : Nat} {size precision : Int}

theorem number_eq (hb : 2 ≤ base) (h36 : base ≤ 36) :
    number num base size precision type =
      let tmp := tmpText (cleared type) num base hb
      let precision := if precision < (tmp.length : Int) then (tmp.length : Int) else precision
      let p := pads (cleared type) (int (room (cleared type) num base size - precision))
      some (p.1 ++ signText (cleared type) num ++ prefixText (cleared type) base ++ p.2.1 ++
        (postDec tmp.length (ch '0') precision).1 ++ tmp.reverse ++ p.2.2) := by
  unfold number
  rw [dif_neg (by omega)]
  have hsmall : (cleared type).small = type.small := by unfold cleared; split <;> rfl
  unfold tmpText prefixText
  rw [hsmall]
  rfl

/-! ### After `LEFT` has switched `ZEROPAD` off -/

theorem cleared_left (type : Flags) : (cleared type).left = type.left := by
  unfold cleared
  split <;> rfl

theorem cleared_zeropad (type : Flags) :
    (cleared type).zeropad = (type.zeropad && !type.left) := by
  unfold cleared
  split <;> simp_all

theorem signText_cleared (type : Flags) (num : Word) :
    signText (cleared type) num = signText type num := by
  unfold cleared
  split <;> rfl

theorem prefixText_cleared (type : Flags) (base : Nat) :
    prefixText (cleared type) base = prefixText type base := by
  unfold cleared
  split <;> rfl

theorem room_cleared (type : Flags) (num : Word) (base : Nat) (size : Int) :
    room (cleared type) num base size = room type num base size := by
  unfold cleared
  split <;> rfl

theorem tmpText_cleared (type : Flags) (num : Word) (hb : 2 ≤ base) :
    tmpText (cleared type) num base hb = tmpText type num base hb := by
  unfold cleared
  split <;> rfl

/-! ### Width -/

/-- How many of the three loops are over when the last one starts. -/
def spent (type : Flags) : Int := if type.left then 0 else if type.zeropad then 1 else 2

/-- A loop entered with a counter that is negative writes nothing. -/
theorem postDec_neg (c : Byte) {n : Int} (h₁ : -2 ^ 31 < n) (h₂ : n < 0) :
    postDec 0 c n = ([], n - 1) := by
  rw [postDec_eq 0 c n (by omega) (by omega), Int.toNat_of_nonpos (by omega),
    Int.min_eq_left (by omega)]
  rfl

theorem postDec_text (c : Byte) (n : Int) :
    (postDec 0 c n).1 = List.replicate n.toNat c := by
  rw [postDec, fill_eq, Int.sub_zero]

/-- **One of the three loops pads**, if the counter does not wrap before the last one. -/
theorem pads_eq (type : Flags) (h₁ : -2 ^ 31 + spent type ≤ size) (h₂ : size < 2 ^ 31) :
    pads (cleared type) size =
      if type.left then ([], [], List.replicate size.toNat (ch ' '))
      else if type.zeropad then ([], List.replicate size.toNat (ch '0'), [])
      else (List.replicate size.toNat (ch ' '), [], []) := by
  have first (c : Byte) (h : -2 ^ 31 < size) : postDec 0 c size =
      (List.replicate size.toNat c, min size 0 - 1) := by
    rw [postDec_eq 0 c size (by omega) (by omega), Int.sub_zero]
  have done : (min size 0 - 1).toNat = 0 := Int.toNat_of_nonpos (by omega)
  have done' : (min size 0 - 1 - 1).toNat = 0 := Int.toNat_of_nonpos (by omega)
  unfold spent at h₁
  unfold pads
  rw [cleared_left, cleared_zeropad]
  generalize type.left = left at *
  generalize type.zeropad = zeropad at *
  rcases left with _ | _ <;> rcases zeropad with _ | _
  · simp only [Bool.or_false, Bool.not_false, if_true, Bool.and_true, Bool.false_eq_true,
      if_false] at h₁ ⊢
    rw [first _ (by omega), postDec_neg _ (by omega) (by omega), postDec_text, done']
    rfl
  · simp only [Bool.not_false, Bool.not_true, if_true, Bool.and_true, Bool.true_or,
      Bool.false_eq_true, if_false] at h₁ ⊢
    rw [first _ (by omega), postDec_text, done]
    rfl
  · simp only [Bool.or_true, Bool.not_true, if_true, Bool.false_eq_true, if_false]
    rw [postDec_text]
  · simp only [Bool.or_true, Bool.not_true, if_true, Bool.false_eq_true, if_false]
    rw [postDec_text]

/-- What the three loops write: the width in all, blanks outside and zeros inside. -/
theorem pads_parts (type : Flags) (h₁ : -2 ^ 31 + spent type ≤ size) (h₂ : size < 2 ^ 31) :
    ∃ blanks zeros tail, pads (cleared type) size = (blanks, zeros, tail) ∧
      (∀ c ∈ blanks ++ tail, c = ch ' ') ∧ (∀ c ∈ zeros, c = ch '0') ∧
      blanks.length + zeros.length + tail.length = size.toNat := by
  rw [pads_eq type h₁ h₂]
  split
  · exact ⟨_, _, _, rfl, fun c hc => List.eq_of_mem_replicate hc, by simp, by simp⟩
  · split
    · exact ⟨_, _, _, rfl, by simp, fun c hc => List.eq_of_mem_replicate hc, by simp⟩
    · refine ⟨_, _, _, rfl, fun c hc => ?_, by simp, by simp⟩
      rw [List.append_nil] at hc
      exact List.eq_of_mem_replicate hc

theorem signText_length (type : Flags) (num : Word) :
    (signText type num).length = if signChar type num ≠ 0 then 1 else 0 := by
  unfold signText
  split <;> rfl

theorem prefixText_length (type : Flags) (base : Nat) :
    (prefixText type base).length =
      if type.special then if base = 16 then 2 else if base = 8 then 1 else 0 else 0 := by
  unfold prefixText
  split
  · by_cases h8 : base = 8
    · rw [if_pos h8, if_neg (by omega), if_pos h8]
      rfl
    · rw [if_neg h8]
      split <;> rfl
  · rfl

/-- The width left is the width without the sign and the prefix. -/
theorem room_eq (type : Flags) (num : Word) (base : Nat) (h₁ : -2 ^ 30 < size)
    (h₂ : size < 2 ^ 30) : room type num base size =
      size - (signText type num).length - (prefixText type base).length := by
  rw [signText_length, prefixText_length]
  unfold room
  have hsign : (if signChar type num ≠ 0 then int (size - 1) else size) =
      size - ((if signChar type num ≠ 0 then 1 else 0 : Nat) : Int) := by
    split
    · exact int_of_bounds (by omega) (by omega)
    · exact (Int.sub_zero size).symm
  dsimp only
  rw [hsign]
  generalize hs : ((if signChar type num ≠ 0 then 1 else 0 : Nat) : Int) = s
  have hs' : 0 ≤ s ∧ s ≤ 1 := by
    rw [← hs]
    split <;> simp
  split
  · split
    · exact int_of_bounds (by omega) (by omega)
    · split
      · exact int_of_bounds (by omega) (by omega)
      · exact (Int.sub_zero _).symm
  · exact (Int.sub_zero _).symm

/-! ### Value -/

/-- The division has no sign, and neither has what it divides: also -2147483648 is 2147483648. -/
theorem toNat_abs (type : Flags) (num : Word) :
    (if negative type num then -num else num).toNat = magnitude type num := by
  unfold negative magnitude
  have hlt := num.isLt
  have hint := num.toInt_eq_toNat_cond
  cases type.sign
  · rfl
  · simp only [Bool.true_and, decide_eq_true_eq, if_true]
    by_cases hneg : num.toInt < 0
    · rw [if_pos hneg, BitVec.toNat_neg]
      split at hint <;> omega
    · rw [if_neg hneg]
      split at hint <;> omega

theorem tmpText_digits (type : Flags) (num : Word) (hb : 2 ≤ base) (h36 : base ≤ 36) :
    (tmpText type num base hb).map digitValue =
      if magnitude type num = 0 then [0] else Nat.digits base (magnitude type num) := by
  have habs := toNat_abs type num
  unfold tmpText
  dsimp only
  by_cases hz : (if negative type num then -num else num) = 0
  · have hmag : magnitude type num = 0 := by rw [← habs, hz]; rfl
    rw [if_pos hz, if_pos hmag]
    rfl
  · have hmag : magnitude type num ≠ 0 := by
      rw [← habs]
      exact fun h0 => hz (BitVec.eq_of_toNat_eq h0)
    rw [if_neg hz, if_neg hmag, map_tmpDigits type.small hb h36, habs]

/-- What is in `tmp`. -/
structure Reads (base v : Nat) (tmp : List Byte) : Prop where
  length : tmp.length = digitCount base v
  digit : ∀ c ∈ tmp, digitValue c < base
  value : Nat.ofDigits base (tmp.map digitValue) = v

theorem tmpText_reads (type : Flags) (num : Word) (hb : 2 ≤ base) (h36 : base ≤ 36) :
    Reads base (magnitude type num) (tmpText type num base hb) := by
  have hd := tmpText_digits type num hb h36
  by_cases hz : magnitude type num = 0
  · rw [if_pos hz] at hd
    refine ⟨?_, fun c hc => ?_, ?_⟩
    · rw [← List.length_map (f := digitValue), hd, hz, digitCount, Nat.digits_zero]
      rfl
    · have : digitValue c ∈ [0] := hd ▸ List.mem_map_of_mem hc
      rw [List.mem_singleton.mp this]
      omega
    · rw [hd, hz, Nat.ofDigits_singleton]
  · rw [if_neg hz] at hd
    refine ⟨?_, fun c hc => ?_, ?_⟩
    · have hpos : 0 < (Nat.digits base (magnitude type num)).length :=
        List.length_pos_iff.mpr (Nat.digits_ne_nil_iff_ne_zero.mpr hz)
      rw [← List.length_map (f := digitValue), hd, digitCount]
      omega
    · exact Nat.digits_lt_base (by omega) (hd ▸ List.mem_map_of_mem hc)
    · rw [hd, Nat.ofDigits_digits]

/-- **`tmp` is never overrun**: 32 digits at most. -/
theorem digitCount_le (type : Flags) (num : Word) (hb : 2 ≤ base) :
    digitCount base (magnitude type num) ≤ 32 := by
  have hlt : magnitude type num < 2 ^ 32 := by
    rw [← toNat_abs]
    exact BitVec.isLt _
  have hpow : 2 ^ 32 ≤ base ^ 32 := Nat.pow_le_pow_left hb 32
  have := (Nat.digits_length_le_iff (by omega) (magnitude type num)).mpr (hlt.trans_le hpow)
  unfold digitCount
  omega

/-! ## The text -/

/-- What `number` should print: the width is kept, and sign and value can be read back. -/
structure Formats (type : Flags) (num : Word) (base : Nat) (size precision : Int)
    (text : List Byte) : Prop where
  parts : ∃ blanks zeros ds tail,
    text = blanks ++ signText type num ++ prefixText type base ++ zeros ++ ds ++ tail ∧
    (∀ c ∈ blanks ++ tail, c = ch ' ') ∧ (∀ c ∈ zeros, c = ch '0') ∧
    Reads base (magnitude type num) ds.reverse
  length : (text.length : Int) = max size ((signText type num).length +
    (prefixText type base).length + max precision (digitCount base (magnitude type num)))
  fits : digitCount base (magnitude type num) ≤ 32
  minus : ch '-' ∈ text ↔ type.sign = true ∧ num.toInt < 0

theorem minus_mem_signText (type : Flags) (num : Word) :
    ch '-' ∈ signText type num ↔ negative type num = true := by
  unfold signText signChar
  cases negative type num <;> cases type.plus <;> cases type.space <;> decide

theorem minus_not_mem_prefixText (type : Flags) (base : Nat) :
    ch '-' ∉ prefixText type base := by
  unfold prefixText
  split
  · split
    · decide
    · split
      · cases type.small <;> decide
      · decide
  · decide

/-- Nothing but the sign prints a minus. -/
theorem minus_mem_text {blanks zeros ds tail : List Byte} (h36 : base ≤ 36)
    (hb : ∀ c ∈ blanks ++ tail, c = ch ' ') (hz : ∀ c ∈ zeros, c = ch '0')
    (hd : ∀ c ∈ ds, digitValue c < base) :
    ch '-' ∈ blanks ++ signText type num ++ prefixText type base ++ zeros ++ ds ++ tail ↔
      type.sign = true ∧ num.toInt < 0 := by
  have hblank : ch '-' ∉ blanks ++ tail := fun h => absurd (hb _ h) (by decide)
  have hzero : ch '-' ∉ zeros := fun h => absurd (hz _ h) (by decide)
  have hdigit : ch '-' ∉ ds := by
    intro h
    have hv : digitValue (ch '-') = 36 := by decide
    have := hd _ h
    omega
  have hprefix := minus_not_mem_prefixText type base
  rw [List.mem_append, not_or] at hblank
  simp only [List.mem_append, hblank.1, hblank.2, hzero, hdigit, hprefix, false_or, or_false,
    minus_mem_signText]
  rw [negative, Bool.and_eq_true, decide_eq_true_iff]

/-- **Integer formatting can be read back.** -/
theorem number_formats (num : Word) {base : Nat} (hb : 2 ≤ base) (h36 : base ≤ 36) (type : Flags)
    {size precision : Int} (hs : -2 ^ 30 < size ∧ size < 2 ^ 30)
    (hp : -2 ^ 30 < precision ∧ precision < 2 ^ 30)
    (hroom : -2 ^ 31 + spent type ≤ size - (signText type num).length -
      (prefixText type base).length - max precision (digitCount base (magnitude type num))) :
    ∃ text, number num base size precision type = some text ∧
      Formats type num base size precision text := by
  have hreads := tmpText_reads type num hb h36
  have hcount := digitCount_le type num hb
  have hspent : 0 ≤ spent type := by
    unfold spent
    split
    · omega
    · split <;> omega
  rw [number_eq hb h36, tmpText_cleared, signText_cleared, prefixText_cleared, room_cleared,
    room_eq type num base hs.1 hs.2]
  dsimp only
  rw [hreads.length]
  have hprec : (if precision < (digitCount base (magnitude type num) : Int) then
      (digitCount base (magnitude type num) : Int) else precision) =
        max precision (digitCount base (magnitude type num)) := by
    split <;> omega
  obtain ⟨blanks, lead, tail, hpads, hblank, hlead, hlen⟩ := pads_parts type hroom (by omega)
  rw [hprec, int_of_bounds (by omega) (by omega), hpads, postDec, fill_eq]
  have hzeros : ∀ c ∈ lead ++ List.replicate
      (max precision (digitCount base (magnitude type num)) -
        (digitCount base (magnitude type num) : Int)).toNat (ch '0'), c = ch '0' := by
    intro c hc
    rcases List.mem_append.mp hc with hc | hc
    · exact hlead c hc
    · exact List.eq_of_mem_replicate hc
  refine ⟨_, rfl, ⟨blanks, _, (tmpText type num base hb).reverse, tail, ?_, hblank, hzeros, ?_⟩,
    ?_, hcount, ?_⟩
  · simp only [List.append_assoc]
  · rwa [List.reverse_reverse]
  · simp only [List.length_append, List.length_replicate, List.length_reverse, hreads.length]
    omega
  · have hdigit : ∀ c ∈ (tmpText type num base hb).reverse, digitValue c < base :=
      fun c hc => hreads.digit c (List.mem_reverse.mp hc)
    simpa only [List.append_assoc] using @minus_mem_text type num base _ _ _ _ h36 hblank hzeros
      hdigit

/-- `%8.4d` of -42. -/
theorem number_formats_minus : ∃ text, number (-42) 10 8 4 { sign := true } = some text ∧
    Formats { sign := true } (-42) 10 8 4 text := by
  have hcount := digitCount_le { sign := true } (-42) (by decide : 2 ≤ 10)
  have hsign : (signText { sign := true } (-42)).length = 1 := by decide
  have hprefix : (prefixText { sign := true } 10).length = 0 := by decide
  have hspent : spent { sign := true } = 2 := by decide
  exact number_formats (-42) (by decide) (by decide) { sign := true } (by decide) (by decide)
    (by omega)

/-- The lowest width together with the highest precision: the counter is at -2147483648 after the
first loop, wraps in the second, and the last one prints 2147483647 blanks. -/
theorem number_wraps : ¬ ∀ (num : Word) (base : Nat) (type : Flags) (size precision : Int),
    2 ≤ base → base ≤ 36 → -2 ^ 30 < size ∧ size < 2 ^ 30 →
    -2 ^ 30 < precision ∧ precision < 2 ^ 30 →
    ∃ text, number num base size precision type = some text ∧
      Formats type num base size precision text := by
  intro h
  obtain ⟨text, ht, hf⟩ := h 0 10 { plus := true } (-1073741823) 1073741823 (by decide)
    (by decide) (by decide) (by decide)
  have hlen := hf.length
  have hsign : (signText { plus := true } 0).length = 1 := by decide
  have hprefix : (prefixText { plus := true } 10).length = 0 := by decide
  have hfits := hf.fits
  have hfirst (c : Byte) : postDec 0 c (-2147483647) = ([], -2147483648) :=
    postDec_neg c (by decide) (by decide)
  have hsecond (c : Byte) : postDec 0 c (-2147483648) = ([], 2147483647) := by
    have hwrap : int (-2147483648 - 1) = 2147483647 := by decide
    rw [postDec, fill_eq]
    exact Prod.ext rfl hwrap
  have hpads : (pads { plus := true } (-2147483647)).2.2.length = 2147483647 := by
    have hthird : (2147483647 : Int).toNat = 2147483647 := rfl
    unfold pads
    simp only [Bool.or_false, Bool.not_false, if_true, hfirst, hsecond, postDec_text, hthird,
      List.length_replicate]
  have hroom : room { plus := true } 0 10 (-1073741823) = -1073741824 := by
    rw [room_eq _ _ _ (by decide) (by decide), hsign, hprefix]
    rfl
  have htext := @number_eq { plus := true } 0 10 (-1073741823) 1073741823 (by decide) (by decide)
  have hreads := tmpText_reads { plus := true } 0 (by decide : 2 ≤ 10) (by decide)
  have hclear : cleared { plus := true } = { plus := true } := rfl
  dsimp only at htext
  rw [ht, hclear, hroom, hreads.length, if_neg (by omega),
    show (-1073741824 : Int) - 1073741823 = -2147483647 by decide,
    int_of_bounds (by decide) (by decide)] at htext
  have htail := congrArg List.length (Option.some.inj htext)
  rw [List.length_append, hpads] at htail
  omega

end Hurlex.Printk
