import Hurlex.String
import Hurlex.Kernel.PrintkRender

/-!
# The format pointer of `vsprintf` (`kernel/printk.c`)

What `vsprintf` does with `format` alone, on a string in memory: the `for` loop, the jumps to
`repeat:`, `skip_atoi`, which gets the address of `format`, and the `default` of the switch, which
takes a step back if the directive has ended too early. The arguments decide what is written, and the
pointer does not depend on them. The format is not written to while it is read.

A cursor is the pointer with every value it has had, so that going past the NUL and coming back would
not go unnoticed.

* **`passAt_advances`**: a pass over a character in front of the NUL ends behind it, at the NUL at the
  latest, and the pointer never leaves the string in between.
* **`scansWithin`**: so the loop ends, and it ends at the NUL.
* **`pass_chars`**: what a pass does to the pointer is what it does to the characters that are left,
  whatever the arguments are. With this `vsprintf` comes to an end on every format.
-/

namespace Hurlex.Printk

/-- `format`, and all values it has had. -/
structure Cursor where
  pos : Nat
  seen : List Nat

/-- `++format`. -/
def Cursor.inc (cur : Cursor) : Cursor := ⟨cur.pos + 1, (cur.pos + 1) :: cur.seen⟩

/-- `--format`. -/
def Cursor.dec (cur : Cursor) : Cursor := ⟨cur.pos - 1, (cur.pos - 1) :: cur.seen⟩

/-- The characters that jump to `repeat:`. -/
def IsFlag (c : Byte) : Prop := c = ch '-' ∨ c = ch '+' ∨ c = ch ' ' ∨ c = ch '#' ∨ c = ch '0'

instance (c : Byte) : Decidable (IsFlag c) := inferInstanceAs (Decidable (_ ∨ _))

/-- `h`, `l` and `L`. -/
def IsQualifier (c : Byte) : Prop := c = ch 'h' ∨ c = ch 'l' ∨ c = ch 'L'

instance (c : Byte) : Decidable (IsQualifier c) := inferInstanceAs (Decidable (_ ∨ _))

section Pointer

variable (mem : ByteMem)

/-- From `repeat:` on. -/
def flagsAt : Nat → Cursor → Kern Cursor
  | 0, _ => .error .noReturn
  | fuel + 1, cur =>
    let cur := cur.inc
    if IsFlag (mem cur.pos) then flagsAt fuel cur else .ok cur

/-- `skip_atoi(&format)`. -/
def skipAtoiAt : Nat → Cursor → Kern Cursor
  | 0, _ => .error .noReturn
  | fuel + 1, cur => if isDigit (mem cur.pos) then skipAtoiAt fuel cur.inc else .ok cur

/-- A number; at a `*` the pointer stays. -/
def numberAt (cur : Cursor) : Kern Cursor :=
  if isDigit (mem cur.pos) then skipAtoiAt mem addrSpace cur else .ok cur

/-- "get the precision". -/
def precisionAt (cur : Cursor) : Kern Cursor :=
  if mem cur.pos = ch '.' then numberAt mem cur.inc else .ok cur

/-- "get the conversion qualifier". -/
def qualifierAt (cur : Cursor) : Cursor :=
  if IsQualifier (mem cur.pos) then cur.inc else cur

/-- The switch on the conversion. No case moves the pointer but the `default`, at the NUL. -/
def convertAt (cur : Cursor) : Cursor := if mem cur.pos = 0 then cur.dec else cur

/-- A pass of the loop, with the `++format` behind it. -/
def passAt (cur : Cursor) : Kern Cursor :=
  if mem cur.pos ≠ ch '%' then .ok cur.inc
  else do
    let cur ← flagsAt mem addrSpace cur
    let cur ← numberAt mem cur
    let cur ← precisionAt mem cur
    return (convertAt mem (qualifierAt mem cur)).inc

/-- `for ( ; *format ; ++format)`: where each of the passes ends, and the cursor behind the loop. -/
def passesAt : Nat → Cursor → Kern (List Nat × Cursor)
  | 0, _ => .error .noReturn
  | fuel + 1, cur =>
    if mem cur.pos = 0 then .ok ([], cur)
    else do
      let next ← passAt mem cur
      let r ← passesAt fuel next
      return (next.pos :: r.1, r.2)

end Pointer

/-- What is left of the string of `n` characters at `a` from `p` on. -/
def left (mem : ByteMem) (a n p : Nat) : List Byte := chars mem p (a + n - p)

/-- The loop over the string of `n` characters at `a` ends at its NUL, each pass ends behind where it
started, and the pointer stays in the string. These are the passes of `vsprintf`, whatever it is to
print. -/
def ScansWithin (mem : ByteMem) (a n : Nat) : Prop :=
  ∃ ends cur, passesAt mem addrSpace ⟨a, [a]⟩ = .ok (ends, cur) ∧ cur.pos = a + n ∧
    (a :: ends).Pairwise (· < ·) ∧ (∀ p ∈ cur.seen, a ≤ p ∧ p ≤ a + n) ∧
    ∀ (args : Nat → Word) (strAt : Word → List Byte), ∃ qs,
      vsprintfPasses args strAt (chars mem a n) = some qs ∧
        qs.map Pass.format = ends.map (left mem a n)

/-! ## The pointer stays in the string -/

/-- The cursor is in the string, and has always been. -/
structure Within (a n : Nat) (cur : Cursor) : Prop where
  low : a ≤ cur.pos
  high : cur.pos ≤ a + n
  seen : ∀ p ∈ cur.seen, a ≤ p ∧ p ≤ a + n

variable {mem : ByteMem} {a n fuel : Nat} {cur : Cursor}

/-- In front of the NUL a character may be passed over. -/
theorem Within.inc (hs : IsStr mem a n) (h : Within a n cur) (hne : mem cur.pos ≠ 0) :
    Within a n cur.inc := by
  have hlt : cur.pos < a + n := by
    refine Nat.lt_of_le_of_ne h.high fun heq => hne ?_
    rw [heq]
    exact hs.nul
  refine ⟨Nat.le_succ_of_le h.low, hlt, fun p hp => ?_⟩
  rcases List.mem_cons.1 hp with rfl | hp
  · exact ⟨Nat.le_succ_of_le h.low, hlt⟩
  · exact h.seen p hp

theorem Within.dec (h : Within a n cur) (hlow : a < cur.pos) : Within a n cur.dec := by
  have hpos : a ≤ cur.pos - 1 ∧ cur.pos - 1 ≤ a + n := ⟨by omega, by have := h.high; omega⟩
  refine ⟨hpos.1, hpos.2, fun p hp => ?_⟩
  rcases List.mem_cons.1 hp with rfl | hp
  · exact hpos
  · exact h.seen p hp

theorem IsFlag.ne_zero {c : Byte} (h : IsFlag c) : c ≠ 0 := by
  rcases h with rfl | rfl | rfl | rfl | rfl <;> decide

theorem IsQualifier.ne_zero {c : Byte} (h : IsQualifier c) : c ≠ 0 := by
  rcases h with rfl | rfl | rfl <;> decide

theorem ne_zero_of_isDigit {c : Byte} (h : isDigit c = true) : c ≠ 0 := by
  rintro rfl
  revert h
  decide

/-- A part of a pass goes on to a place in the string. -/
def Goes (a n : Nat) (cur : Cursor) (r : Kern Cursor) : Prop :=
  ∃ cur', r = .ok cur' ∧ Within a n cur' ∧ cur.pos ≤ cur'.pos

theorem goes_self (h : Within a n cur) : Goes a n cur (.ok cur) := ⟨cur, rfl, h, Nat.le_refl _⟩

theorem flagsAt_goes (hs : IsStr mem a n) : ∀ {fuel : Nat} {cur : Cursor}, Within a n cur →
    mem cur.pos ≠ 0 → a + n < cur.pos + fuel → Goes a n cur.inc (flagsAt mem fuel cur)
  | 0, cur, h, _, hfuel => absurd h.high (Nat.not_le.2 hfuel)
  | fuel + 1, cur, h, hne, hfuel => by
    have hinc := h.inc hs hne
    have hroom : a + n < cur.inc.pos + fuel :=
      Nat.lt_of_lt_of_eq hfuel (Nat.succ_add_eq_add_succ ..).symm
    rw [flagsAt]
    by_cases hflag : IsFlag (mem cur.inc.pos)
    · rw [if_pos hflag]
      obtain ⟨cur', heq, hw, hle⟩ := flagsAt_goes hs hinc hflag.ne_zero hroom
      exact ⟨cur', heq, hw, (Nat.le_succ _).trans hle⟩
    · rw [if_neg hflag]
      exact goes_self hinc

theorem skipAtoiAt_goes (hs : IsStr mem a n) : ∀ {fuel : Nat} {cur : Cursor}, Within a n cur →
    a + n < cur.pos + fuel → Goes a n cur (skipAtoiAt mem fuel cur)
  | 0, cur, h, hfuel => absurd h.high (Nat.not_le.2 hfuel)
  | fuel + 1, cur, h, hfuel => by
    have hroom : a + n < cur.inc.pos + fuel :=
      Nat.lt_of_lt_of_eq hfuel (Nat.succ_add_eq_add_succ ..).symm
    rw [skipAtoiAt]
    by_cases hdigit : isDigit (mem cur.pos) = true
    · rw [if_pos hdigit]
      obtain ⟨cur', heq, hw, hle⟩ :=
        skipAtoiAt_goes hs (h.inc hs (ne_zero_of_isDigit hdigit)) hroom
      exact ⟨cur', heq, hw, (Nat.le_succ _).trans hle⟩
    · rw [if_neg hdigit]
      exact goes_self h

/-- There is fuel for every string. -/
theorem lt_addrSpace (hs : IsStr mem a n) (p : Nat) : a + n < p + addrSpace :=
  Nat.lt_of_lt_of_le hs.inside (Nat.le_add_left _ _)

theorem numberAt_goes (hs : IsStr mem a n) (h : Within a n cur) :
    Goes a n cur (numberAt mem cur) := by
  unfold numberAt
  split
  · exact skipAtoiAt_goes hs h (lt_addrSpace hs _)
  · exact goes_self h

theorem precisionAt_goes (hs : IsStr mem a n) (h : Within a n cur) :
    Goes a n cur (precisionAt mem cur) := by
  unfold precisionAt
  split
  · rename_i hdot
    have hne : mem cur.pos ≠ 0 := by
      rw [hdot]
      decide
    obtain ⟨cur', heq, hw, hle⟩ := numberAt_goes hs (h.inc hs hne)
    exact ⟨cur', heq, hw, (Nat.le_succ _).trans hle⟩
  · exact goes_self h

theorem qualifierAt_within (hs : IsStr mem a n) (h : Within a n cur) :
    Within a n (qualifierAt mem cur) ∧ cur.pos ≤ (qualifierAt mem cur).pos := by
  unfold qualifierAt
  split
  · rename_i hq
    exact ⟨h.inc hs hq.ne_zero, Nat.le_succ _⟩
  · exact ⟨h, Nat.le_refl _⟩

/-- The step back at the NUL is undone by the `++format` of the loop. -/
theorem convertAt_inc (hs : IsStr mem a n) (h : Within a n cur) (hlow : a < cur.pos) :
    Within a n (convertAt mem cur).inc ∧ cur.pos ≤ (convertAt mem cur).inc.pos := by
  unfold convertAt
  split
  · have hpos : cur.dec.inc.pos = cur.pos := Nat.sub_add_cancel (Nat.zero_lt_of_lt hlow)
    have hback : a ≤ cur.dec.inc.pos ∧ cur.dec.inc.pos ≤ a + n := hpos ▸ ⟨h.low, h.high⟩
    refine ⟨⟨hback.1, hback.2, fun p hp => ?_⟩, Nat.le_of_eq hpos.symm⟩
    rcases List.mem_cons.1 hp with rfl | hp
    · exact hback
    · exact (h.dec hlow).seen p hp
  · rename_i hne
    exact ⟨h.inc hs hne, Nat.le_succ _⟩

/-- **A pass consumes a character**, and stays in the string. -/
theorem passAt_advances (hs : IsStr mem a n) (h : Within a n cur) (hne : mem cur.pos ≠ 0) :
    ∃ cur', passAt mem cur = .ok cur' ∧ Within a n cur' ∧ cur.pos < cur'.pos := by
  unfold passAt
  by_cases hpercent : mem cur.pos ≠ ch '%'
  · rw [if_pos hpercent]
    exact ⟨_, rfl, h.inc hs hne, Nat.lt_succ_self _⟩
  · rw [if_neg hpercent]
    obtain ⟨cur₁, heq₁, hw₁, hle₁⟩ := flagsAt_goes hs h hne (lt_addrSpace hs _)
    obtain ⟨cur₂, heq₂, hw₂, hle₂⟩ := numberAt_goes hs hw₁
    obtain ⟨cur₃, heq₃, hw₃, hle₃⟩ := precisionAt_goes hs hw₂
    obtain ⟨hw₄, hle₄⟩ := qualifierAt_within hs hw₃
    have hlt : cur.pos < (qualifierAt mem cur₃).pos :=
      Nat.lt_of_succ_le (hle₁.trans (hle₂.trans (hle₃.trans hle₄)))
    obtain ⟨hw, hle⟩ := convertAt_inc hs hw₄ (Nat.lt_of_le_of_lt h.low hlt)
    refine ⟨(convertAt mem (qualifierAt mem cur₃)).inc, ?_, hw, Nat.lt_of_lt_of_le hlt hle⟩
    rw [heq₁]
    show (numberAt mem cur₁ >>= fun cur => precisionAt mem cur >>= fun cur =>
      pure (convertAt mem (qualifierAt mem cur)).inc) = _
    rw [heq₂]
    show (precisionAt mem cur₂ >>= fun cur => pure (convertAt mem (qualifierAt mem cur)).inc) = _
    rw [heq₃]
    rfl

/-- The loop, from a place in the string. -/
theorem passesAt_within (hs : IsStr mem a n) : ∀ {fuel : Nat} {cur : Cursor}, Within a n cur →
    a + n < cur.pos + fuel → ∃ ends cur', passesAt mem fuel cur = .ok (ends, cur') ∧
      cur'.pos = a + n ∧ Within a n cur' ∧ (cur.pos :: ends).Pairwise (· < ·)
  | 0, cur, h, hfuel => absurd h.high (Nat.not_le.2 hfuel)
  | fuel + 1, cur, h, hfuel => by
    rw [passesAt]
    by_cases hnul : mem cur.pos = 0
    · have hend : cur.pos = a + n := by
        by_contra hne
        have hlow := h.low
        have hhigh := h.high
        refine hs.chars (cur.pos - a) (by omega) ?_
        rwa [Nat.add_sub_cancel' hlow]
      rw [if_pos hnul]
      exact ⟨[], cur, rfl, hend, h, List.pairwise_singleton _ _⟩
    · rw [if_neg hnul]
      obtain ⟨next, hpass, hw, hlt⟩ := passAt_advances hs h hnul
      have hroom : a + n < next.pos + fuel := by omega
      obtain ⟨ends, cur', hrest, hend, hw', hpair⟩ := passesAt_within hs hw hroom
      refine ⟨next.pos :: ends, cur', ?_, hend, hw', List.pairwise_cons.2 ⟨fun p hp => ?_, hpair⟩⟩
      · rw [hpass]
        show (passesAt mem fuel next >>= fun r => pure (next.pos :: r.1, r.2)) = _
        rw [hrest]
        rfl
      · rcases List.mem_cons.1 hp with rfl | hp
        · exact hlt
        · exact hlt.trans (List.rel_of_pairwise_cons hpair hp)

theorem within_start (a n : Nat) : Within a n ⟨a, [a]⟩ := by
  refine ⟨Nat.le_refl _, Nat.le_add_right _ _, fun p hp => ?_⟩
  obtain rfl := List.mem_singleton.1 hp
  exact ⟨Nat.le_refl _, Nat.le_add_right _ _⟩

/-! ## The characters that are left -/

theorem left_nul (mem : ByteMem) (a n : Nat) : left mem a n (a + n) = [] := by
  rw [left, Nat.sub_self]
  rfl

theorem left_succ {p : Nat} (h : p < a + n) : left mem a n p = mem p :: left mem a n (p + 1) := by
  obtain ⟨k, hk⟩ : ∃ k, a + n - p = k + 1 := ⟨a + n - p - 1, by omega⟩
  rw [left, left, hk, show a + n - (p + 1) = k by omega]
  rfl

/-- The pointer is in front of the NUL if it does not point at it. -/
theorem Within.lt (hs : IsStr mem a n) (h : Within a n cur) (hne : mem cur.pos ≠ 0) :
    cur.pos < a + n :=
  Nat.lt_of_succ_le (h.inc hs hne).high

theorem peek_left (hs : IsStr mem a n) (h : Within a n cur) :
    peek (left mem a n cur.pos) = mem cur.pos := by
  rcases Nat.eq_or_lt_of_le h.high with heq | hlt
  · rw [heq, left_nul, hs.nul]
    rfl
  · rw [left_succ hlt]
    rfl

theorem advance_left (hs : IsStr mem a n) (h : Within a n cur) (hne : mem cur.pos ≠ 0) :
    advance (left mem a n cur.pos) = some (left mem a n cur.inc.pos) := by
  rw [left_succ (h.lt hs hne)]
  rfl

theorem setFlag_of_isFlag {c : Byte} (h : IsFlag c) (flags : Flags) :
    ∃ flags', setFlag c flags = some flags' := by
  rcases h with rfl | rfl | rfl | rfl | rfl <;> exact ⟨_, rfl⟩

theorem setFlag_of_not {c : Byte} (h : ¬ IsFlag c) (flags : Flags) : setFlag c flags = none := by
  simp only [IsFlag, not_or] at h
  obtain ⟨h₁, h₂, h₃, h₄, h₅⟩ := h
  rw [setFlag, if_neg h₁, if_neg h₂, if_neg h₃, if_neg h₄, if_neg h₅]

theorem scanFlags_left (hs : IsStr mem a n) : ∀ {fuel : Nat} {cur cur' : Cursor} (flags : Flags),
    Within a n cur → mem cur.pos ≠ 0 → flagsAt mem fuel cur = .ok cur' →
    ∃ flags', scanFlags flags (left mem a n cur.pos) = some (flags', left mem a n cur'.pos)
  | 0, _, _, _, _, _, heq => by cases heq
  | fuel + 1, cur, cur', flags, h, hne, heq => by
    have hinc := h.inc hs hne
    have hpeek : peek (left mem a n (cur.pos + 1)) = mem cur.inc.pos := peek_left hs hinc
    rw [left_succ (h.lt hs hne), scanFlags, hpeek]
    rw [flagsAt] at heq
    by_cases hflag : IsFlag (mem cur.inc.pos)
    · rw [if_pos hflag] at heq
      obtain ⟨flags', hset⟩ := setFlag_of_isFlag hflag flags
      rw [hset]
      exact scanFlags_left hs flags' hinc hflag.ne_zero heq
    · rw [if_neg hflag] at heq
      obtain rfl := Except.ok.inj heq
      rw [setFlag_of_not hflag]
      exact ⟨flags, rfl⟩

theorem skipAtoi_left (hs : IsStr mem a n) : ∀ {fuel : Nat} {cur cur' : Cursor} (i : Int),
    Within a n cur → skipAtoiAt mem fuel cur = .ok cur' →
    (skipAtoi i (left mem a n cur.pos)).2 = left mem a n cur'.pos
  | 0, _, _, _, _, heq => by cases heq
  | fuel + 1, cur, cur', i, h, heq => by
    rw [skipAtoiAt] at heq
    by_cases hdigit : isDigit (mem cur.pos) = true
    · rw [if_pos hdigit] at heq
      have hne := ne_zero_of_isDigit hdigit
      rw [left_succ (h.lt hs hne), skipAtoi, if_pos hdigit]
      exact skipAtoi_left hs _ (h.inc hs hne) heq
    · rw [if_neg hdigit] at heq
      obtain rfl := Except.ok.inj heq
      rcases Nat.eq_or_lt_of_le h.high with hend | hlt
      · rw [hend, left_nul]
        rfl
      · rw [left_succ hlt, skipAtoi, if_neg hdigit]

section Arguments

variable (args : Nat → Word) (strAt : Word → List Byte)

/-- A number in digits is taken off the format, anything else stays. -/
theorem numberAt_left (hs : IsStr mem a n) (h : Within a n cur) {cur' : Cursor}
    (heq : numberAt mem cur = .ok cur') :
    (if isDigit (mem cur.pos) then (skipAtoi 0 (left mem a n cur.pos)).2
      else left mem a n cur.pos) = left mem a n cur'.pos := by
  unfold numberAt at heq
  by_cases hdigit : isDigit (mem cur.pos) = true
  · rw [if_pos hdigit] at heq ⊢
    exact skipAtoi_left hs 0 h heq
  · rw [if_neg hdigit] at heq ⊢
    obtain rfl := Except.ok.inj heq
    rfl

theorem scanWidth_left (hs : IsStr mem a n) (h : Within a n cur) {cur' : Cursor} {s : Scan}
    (hformat : s.format = left mem a n cur.pos) (heq : numberAt mem cur = .ok cur') :
    (scanWidth args s).format = left mem a n cur'.pos := by
  unfold scanWidth
  rw [hformat, peek_left hs h, ← numberAt_left hs h heq]
  by_cases hdigit : isDigit (mem cur.pos) = true
  · rw [if_pos hdigit, if_pos hdigit]
  · rw [if_neg hdigit, if_neg hdigit]
    dsimp only
    split
    · split <;> rfl
    · exact hformat

theorem scanDigits_left (hs : IsStr mem a n) (h : Within a n cur) {cur' : Cursor} {s : Scan}
    (hformat : s.format = left mem a n cur.pos) (heq : numberAt mem cur = .ok cur') :
    (scanDigits args s).format = left mem a n cur'.pos := by
  unfold scanDigits
  rw [hformat, peek_left hs h, ← numberAt_left hs h heq]
  by_cases hdigit : isDigit (mem cur.pos) = true
  · rw [if_pos hdigit, if_pos hdigit]
  · rw [if_neg hdigit, if_neg hdigit]
    split
    · rfl
    · exact hformat

theorem scanPrecision_left (hs : IsStr mem a n) (h : Within a n cur) {cur' : Cursor} {s : Scan}
    (hformat : s.format = left mem a n cur.pos) (heq : precisionAt mem cur = .ok cur') :
    ∃ s', scanPrecision args s = some s' ∧ s'.format = left mem a n cur'.pos := by
  unfold scanPrecision
  unfold precisionAt at heq
  rw [hformat, peek_left hs h]
  by_cases hdot : mem cur.pos = ch '.'
  · rw [if_pos hdot] at heq ⊢
    have hne : mem cur.pos ≠ 0 := by
      rw [hdot]
      decide
    have hdigits := scanDigits_left args hs (h.inc hs hne) (s := { s with format := _ }) rfl heq
    rw [advance_left hs h hne]
    refine ⟨_, rfl, ?_⟩
    split <;> exact hdigits
  · rw [if_neg hdot] at heq ⊢
    obtain rfl := Except.ok.inj heq
    exact ⟨s, rfl, hformat⟩

theorem scanQualifier_left (hs : IsStr mem a n) (h : Within a n cur) {s : Scan}
    (hformat : s.format = left mem a n cur.pos) :
    ∃ s', scanQualifier s = some s' ∧ s'.format = left mem a n (qualifierAt mem cur).pos := by
  unfold scanQualifier qualifierAt
  rw [hformat, peek_left hs h]
  by_cases hq : IsQualifier (mem cur.pos)
  · rw [if_pos hq, advance_left hs h hq.ne_zero]
    refine ⟨{ s with format := left mem a n cur.inc.pos }, if_pos hq, rfl⟩
  · rw [if_neg hq]
    exact ⟨s, if_neg hq, hformat⟩

/-- `o` is a pass that leaves `format` for the next one. -/
def Leaves (format : List Byte) (o : Option Pass) : Prop := ∃ q, o = some q ∧ q.format = format

theorem Leaves.ite {format : List Byte} {c : Prop} [Decidable c] {o o' : Option Pass}
    (h : Leaves format o) (h' : Leaves format o') : Leaves format (if c then o else o') := by
  split
  · exact h
  · exact h'

theorem convert_left (hs : IsStr mem a n) (h : Within a n cur) (hlow : a < cur.pos) (written : Nat)
    {s : Scan} (hformat : s.format = left mem a n cur.pos) :
    Leaves (left mem a n (convertAt mem cur).inc.pos) (convert args strAt written s) := by
  unfold convert convertAt
  rw [hformat, peek_left hs h]
  by_cases hnul : mem cur.pos = 0
  · have hback : cur.dec.inc.pos = cur.pos := Nat.sub_add_cancel (Nat.zero_lt_of_lt hlow)
    rw [if_pos hnul, hback, hnul]
    exact ⟨_, rfl, rfl⟩
  · rw [if_neg hnul, advance_left hs h hnul]
    dsimp only
    have hnumber (base : Nat) (hb : 2 ≤ base) (h36 : base ≤ 36) (flags : Flags) :
        Leaves (left mem a n cur.inc.pos) (do
          let text ← number (args s.next) base s.fieldWidth s.precision flags
          let format ← some (left mem a n cur.inc.pos)
          some { text, next := s.next + 1, format }) := by
      obtain ⟨text, htext⟩ := number_some (args s.next) hb h36 s.fieldWidth s.precision flags
      rw [htext]
      exact ⟨_, rfl, rfl⟩
    obtain ⟨text, hp⟩ := convP_some s.flags s.fieldWidth s.precision (args s.next)
    rw [hp]
    refine .ite ⟨_, rfl, rfl⟩ (.ite ⟨_, rfl, rfl⟩ (.ite (hnumber 8 (by decide) (by decide) _)
      (.ite ⟨_, rfl, rfl⟩ (.ite (hnumber 16 (by decide) (by decide) _)
      (.ite (hnumber 16 (by decide) (by decide) _) (.ite (hnumber 10 (by decide) (by decide) _)
      (.ite (hnumber 10 (by decide) (by decide) _) (.ite (hnumber 2 (by decide) (by decide) _)
      (.ite ⟨_, rfl, rfl⟩ ?_)))))))))
    rw [if_pos hnul]
    exact ⟨_, rfl, rfl⟩

/-- **A pass over the string is a pass over the characters that are left**, for all arguments. -/
theorem pass_chars (hs : IsStr mem a n) (h : Within a n cur) (hne : mem cur.pos ≠ 0)
    (next written : Nat) {cur' : Cursor} (heq : passAt mem cur = .ok cur') :
    Leaves (left mem a n cur'.pos) (pass args strAt next written (left mem a n cur.pos)) := by
  unfold pass
  unfold passAt at heq
  rw [peek_left hs h]
  by_cases hpercent : mem cur.pos ≠ ch '%'
  · rw [if_pos hpercent] at heq ⊢
    obtain rfl := Except.ok.inj heq
    rw [advance_left hs h hne]
    exact ⟨_, rfl, rfl⟩
  · rw [if_neg hpercent] at heq ⊢
    obtain ⟨cur₁, heq₁, heq⟩ := Kern.bind_eq_ok.1 heq
    obtain ⟨cur₂, heq₂, heq⟩ := Kern.bind_eq_ok.1 heq
    obtain ⟨cur₃, heq₃, heq⟩ := Kern.bind_eq_ok.1 heq
    obtain rfl := Except.ok.inj heq
    obtain ⟨_, ho₁, hw₁, hle₁⟩ := flagsAt_goes hs h hne (lt_addrSpace hs _)
    obtain rfl := Except.ok.inj (heq₁.symm.trans ho₁)
    obtain ⟨_, ho₂, hw₂, hle₂⟩ := numberAt_goes hs hw₁
    obtain rfl := Except.ok.inj (heq₂.symm.trans ho₂)
    obtain ⟨_, ho₃, hw₃, hle₃⟩ := precisionAt_goes hs hw₂
    obtain rfl := Except.ok.inj (heq₃.symm.trans ho₃)
    obtain ⟨hw₄, hle₄⟩ := qualifierAt_within hs hw₃
    have hlow : a < (qualifierAt mem cur₃).pos :=
      Nat.lt_of_le_of_lt h.low (Nat.lt_of_succ_le (hle₁.trans (hle₂.trans (hle₃.trans hle₄))))
    obtain ⟨flags, hflags⟩ := scanFlags_left hs {} h hne heq₁
    have hwidth := @scanWidth_left mem a n cur₁ args hs hw₁ cur₂
      { format := left mem a n cur₁.pos, flags, next } rfl heq₂
    obtain ⟨s₃, hprecision, hformat₃⟩ := scanPrecision_left args hs hw₂ hwidth heq₃
    obtain ⟨s₄, hqualifier, hformat₄⟩ := scanQualifier_left hs hw₃ hformat₃
    have hscan : scan args next (left mem a n cur.pos) = some s₄ := by
      unfold scan
      rw [hflags]
      show (scanPrecision args _ >>= scanQualifier) = some s₄
      rw [hprecision]
      exact hqualifier
    rw [hscan]
    exact convert_left args strAt hs hw₄ hlow written hformat₄

/-- The passes of `vsprintf` end where the pointer does. -/
theorem passes_chars (hs : IsStr mem a n) : ∀ {fuel : Nat} (fuel' : Nat) {cur cur' : Cursor}
    {ends : List Nat} (next written : Nat), Within a n cur → a + n ≤ cur.pos + fuel' →
    passesAt mem fuel cur = .ok (ends, cur') →
    ∃ qs, passes args strAt fuel' next written (left mem a n cur.pos) = some qs ∧
      qs.map Pass.format = ends.map (left mem a n)
  | 0, _, _, _, _, _, _, _, _, heq => by cases heq
  | fuel + 1, fuel', cur, cur', ends, next, written, h, hfuel, heq => by
    rw [passesAt] at heq
    unfold passes
    rw [peek_left hs h]
    by_cases hnul : mem cur.pos = 0
    · rw [if_pos hnul] at heq ⊢
      obtain ⟨rfl, -⟩ := Prod.mk.inj (Except.ok.inj heq)
      exact ⟨[], rfl, rfl⟩
    · rw [if_neg hnul] at heq ⊢
      obtain ⟨cur₁, hpass, heq⟩ := Kern.bind_eq_ok.1 heq
      obtain ⟨r, hrest, heq⟩ := Kern.bind_eq_ok.1 heq
      obtain ⟨rfl, -⟩ := Prod.mk.inj (Except.ok.inj heq)
      obtain ⟨_, hpass', hw, hlt⟩ := passAt_advances hs h hnul
      obtain rfl := Except.ok.inj (hpass.symm.trans hpass')
      cases fuel' with
      | zero => exact absurd hfuel (Nat.not_le.2 (h.lt hs hnul))
      | succ fuel' =>
        obtain ⟨q, hq, hformat⟩ := pass_chars args strAt hs h hnul next written hpass
        obtain ⟨qs, hqs, hends⟩ := passes_chars hs fuel' q.next (written + q.text.length) hw
          (by omega) hrest
        refine ⟨q :: qs, ?_, ?_⟩
        · dsimp only
          rw [hq]
          show (passes args strAt fuel' q.next (written + q.text.length) q.format >>= fun qs =>
            some (q :: qs)) = _
          rw [hformat, hqs]
          rfl
        · rw [List.map_cons, List.map_cons, hformat, hends]

end Arguments

/-- **The scanner never runs off the format**, however it ends and whatever the arguments are. -/
theorem scansWithin (hs : IsStr mem a n) : ScansWithin mem a n := by
  have hleft : left mem a n a = chars mem a n := by rw [left, Nat.add_sub_cancel_left]
  have hstart := within_start a n
  obtain ⟨ends, cur, heq, hend, hw, hpair⟩ := passesAt_within hs hstart (lt_addrSpace hs a)
  refine ⟨ends, cur, heq, hend, hpair, hw.seen, fun args strAt => ?_⟩
  have hfuel : a + n ≤ a + (chars mem a n).length := by rw [length_chars]
  have hpasses := passes_chars args strAt hs (chars mem a n).length 0 0 hstart hfuel heq
  dsimp only at hpasses
  rwa [hleft] at hpasses

/-- `"%"` at `0x1000`. -/
def onePercent : ByteMem := fun i => if i = 0x1000 then ch '%' else 0

theorem onePercent_isStr : IsStr onePercent 0x1000 1 where
  chars i hi := by
    obtain rfl : i = 0 := by omega
    decide
  nul := by decide
  inside := by decide

theorem scansWithin_percent : ScansWithin onePercent 0x1000 1 := scansWithin onePercent_isStr

end Hurlex.Printk
