import Mathlib.Logic.Function.Basic
import Hurlex.Types

/-!
# Bytes and strings (`lib/string.c`)

`bzero` and `strncpy` over a memory of bytes. A pointer is a natural number; an object of the C
program lies in the address space, so a pointer that runs through it does not wrap.

`strncpy` copies in an inner loop that has no bound. The outer loop counts `len` down, but the inner
one has reached the end of the string the first time already. **`strncpy_exact_iff`**: a string
longer than a positive `len` is copied whole.
-/

namespace Hurlex

/-- Memory, byte by byte. -/
abbrev ByteMem := Nat → BitVec 8

/-- The number of addresses. -/
def addrSpace : Nat := 2 ^ 32

/-- `bzero`. -/
def bzero (mem : Nat → BitVec 8) (dest len : Nat) : Nat → BitVec 8 := fun a =>
  if u32Sub a dest < len then 0 else mem a

/-- `while (*src) *dest++ = *src++`: the memory and both pointers afterwards. -/
def copyChars : Nat → ByteMem → Nat → Nat → Kern (ByteMem × Nat × Nat)
  | 0, _, _, _ => .error .noReturn
  | fuel + 1, mem, dest, src =>
    if mem src = 0 then .ok (mem, dest, src)
    else copyChars fuel (Function.update mem dest (mem src)) (dest + 1) (src + 1)

/-- The outer loop of `strncpy`: the memory and `dest` afterwards. -/
def copyLoop : Nat → ByteMem → Nat → Nat → Kern (ByteMem × Nat)
  | 0, mem, dest, _ => .ok (mem, dest)
  | len + 1, mem, dest, src => do
    let r ← copyChars addrSpace mem dest src
    copyLoop len r.1 r.2.1 r.2.2

/-- `strncpy`: the memory afterwards. -/
def strncpy (mem : ByteMem) (dest src len : Nat) : Kern ByteMem := do
  let r ← copyLoop len mem dest src
  return Function.update r.1 r.2 0

/-- A string of `n` characters at `a`. -/
structure IsStr (mem : ByteMem) (a n : Nat) : Prop where
  chars : ∀ i < n, mem (a + i) ≠ 0
  nul : mem (a + n) = 0
  inside : a + n < addrSpace

/-- The `n` characters at `a`. -/
def chars (mem : ByteMem) : Nat → Nat → List (BitVec 8)
  | _, 0 => []
  | a, n + 1 => mem a :: chars mem (a + 1) n

variable {mem mem' : ByteMem} {dest src n len fuel k a : Nat}

theorem length_chars (mem : ByteMem) : ∀ a n : Nat, (chars mem a n).length = n
  | _, 0 => rfl
  | a, n + 1 => congrArg Nat.succ (length_chars mem (a + 1) n)

theorem IsStr.head (h : IsStr mem a (n + 1)) : mem a ≠ 0 := h.chars 0 (Nat.succ_pos n)

theorem IsStr.tail (h : IsStr mem a (n + 1)) : IsStr mem (a + 1) n := by
  have hend : a + 1 + n = a + (n + 1) := by omega
  refine ⟨fun i hi => ?_, ?_, ?_⟩
  · rw [show a + 1 + i = a + (i + 1) by omega]
    exact h.chars (i + 1) (Nat.succ_lt_succ hi)
  · rw [hend]
    exact h.nul
  · rw [hend]
    exact h.inside

/-- `bzero` of bytes that lie in the address space. -/
theorem bzero_apply (hend : dest + len ≤ addrSpace) (ha : a < addrSpace) :
    bzero mem dest len a = if dest ≤ a ∧ a < dest + len then 0 else mem a := by
  have hspace : addrSpace = 2 ^ 32 := rfl
  unfold bzero u32Sub
  by_cases hin : dest ≤ a ∧ a < dest + len
  · rw [if_pos hin, if_pos (by omega)]
  · by_cases hempty : len = 0
    · rw [if_neg hin, if_neg (by omega)]
    · rw [if_neg hin, if_neg (by omega)]

/-! ## The loops -/

/-- The memory with `k` bytes copied from `src` to `dest`. -/
def copied (mem : ByteMem) (dest src k : Nat) : ByteMem := fun a =>
  if dest ≤ a ∧ a < dest + k then mem (src + (a - dest)) else mem a

theorem copied_zero (mem : ByteMem) (dest src : Nat) : copied mem dest src 0 = mem := by
  funext a
  exact if_neg (by omega)

theorem copied_at {i : Nat} (h : i < k) : copied mem dest src k (dest + i) = mem (src + i) := by
  rw [copied, if_pos (by omega), Nat.add_sub_cancel_left]

theorem copied_of_not_mem (h : a < dest ∨ dest + k ≤ a) : copied mem dest src k a = mem a :=
  if_neg (by omega)

/-- A byte more. -/
theorem copied_succ (mem : ByteMem) (dest src k : Nat) :
    Function.update (copied mem dest src k) (dest + k) (mem (src + k)) =
      copied mem dest src (k + 1) := by
  funext a
  by_cases ha : a = dest + k
  · subst ha
    rw [Function.update_self, copied_at (Nat.lt_succ_self k)]
  · rw [Function.update_of_ne ha]
    unfold copied
    by_cases hin : dest ≤ a ∧ a < dest + k
    · rw [if_pos hin, if_pos (by omega)]
    · rw [if_neg hin, if_neg (by omega)]

/-- The inner loop after `k` characters, which lie apart from where they go. -/
theorem copyChars_steps : ∀ {k fuel : Nat}, (∀ i < k, mem (src + i) ≠ 0) →
    src + k ≤ dest ∨ dest + k ≤ src →
    copyChars (fuel + k) mem dest src =
      copyChars fuel (copied mem dest src k) (dest + k) (src + k)
  | 0, fuel, _, _ => by
    rw [copied_zero]
    rfl
  | k + 1, fuel, hchars, hapart => by
    have ih : copyChars (fuel + 1 + k) mem dest src =
        copyChars (fuel + 1) (copied mem dest src k) (dest + k) (src + k) :=
      copyChars_steps (fun i hi => hchars i (Nat.lt_succ_of_lt hi)) (by omega)
    have hread : copied mem dest src k (src + k) = mem (src + k) :=
      copied_of_not_mem (by omega)
    rw [show fuel + (k + 1) = fuel + 1 + k by omega, ih, copyChars, hread,
      if_neg (hchars k (Nat.lt_succ_self k)), copied_succ]
    rfl

/-- The inner loop on a whole string. -/
theorem copyChars_str (hs : IsStr mem src n) (hapart : src + n < dest ∨ dest + n ≤ src)
    (hfuel : n < fuel) :
    copyChars fuel mem dest src = .ok (copied mem dest src n, dest + n, src + n) := by
  obtain ⟨f, rfl⟩ : ∃ f, fuel = f + 1 + n := ⟨fuel - 1 - n, by omega⟩
  have hnul : copied mem dest src n (src + n) = 0 := by
    rw [copied_of_not_mem (by omega), hs.nul]
  rw [copyChars_steps hs.chars (by omega), copyChars, if_pos hnul]

theorem addrSpace_pos : 0 < addrSpace := Nat.two_pow_pos 32

/-- At the end of the string the inner loop stops at once, however often it is entered. -/
theorem copyLoop_nul (h : mem src = 0) : ∀ len, copyLoop len mem dest src = .ok (mem, dest)
  | 0 => rfl
  | len + 1 => by
    have hstop : copyChars addrSpace mem dest src = .ok (mem, dest, src) := by
      obtain ⟨f, hf⟩ := Nat.exists_eq_succ_of_ne_zero (Nat.pos_iff_ne_zero.mp addrSpace_pos)
      rw [hf, copyChars, if_pos h]
    rw [copyLoop, hstop]
    exact copyLoop_nul h len

/-- The inner loop writes nothing in front of `dest`. -/
theorem copyChars_below : ∀ {fuel dest src : Nat} {mem : ByteMem} {r : ByteMem × Nat × Nat},
    copyChars fuel mem dest src = .ok r → dest ≤ r.2.1 ∧ ∀ a < dest, r.1 a = mem a
  | 0, _, _, _, _, h => nomatch h
  | fuel + 1, dest, src, mem, r, h => by
    rw [copyChars] at h
    by_cases hz : mem src = 0
    · rw [if_pos hz] at h
      cases h
      exact ⟨Nat.le_refl _, fun _ _ => rfl⟩
    · rw [if_neg hz] at h
      obtain ⟨hle, hkeep⟩ := copyChars_below h
      refine ⟨by omega, fun a ha => ?_⟩
      rw [hkeep a (by omega), Function.update_of_ne (by omega)]

/-- Nor does the outer one. -/
theorem copyLoop_below : ∀ {len dest src : Nat} {mem : ByteMem} {r : ByteMem × Nat},
    copyLoop len mem dest src = .ok r → dest ≤ r.2 ∧ ∀ a < dest, r.1 a = mem a
  | 0, _, _, _, _, h => by
    cases h
    exact ⟨Nat.le_refl _, fun _ _ => rfl⟩
  | len + 1, dest, src, mem, r, h => by
    rw [copyLoop, Kern.bind_eq_ok] at h
    obtain ⟨q, hq, hr⟩ := h
    obtain ⟨hle, hkeep⟩ := copyChars_below hq
    obtain ⟨hle', hkeep'⟩ := copyLoop_below hr
    exact ⟨by omega, fun a ha => (hkeep' a (by omega)).trans (hkeep a ha)⟩

/-! ## `strncpy` -/

/-- What `strncpy` should leave of a string of `n` characters: the first `len` of them, a NUL, and
nothing written behind. -/
structure Copies (mem mem' : ByteMem) (dest src n len : Nat) : Prop where
  chars : ∀ i < min n len, mem' (dest + i) = mem (src + i)
  nul : mem' (dest + min n len) = 0
  frame : ∀ a, a < dest ∨ dest + len < a → mem' a = mem a

/-- `strncpy` returns, and does what it should. -/
def StrncpyExact (mem : ByteMem) (dest src n len : Nat) : Prop :=
  ∃ mem', strncpy mem dest src len = .ok mem' ∧ Copies mem mem' dest src n len

/-- Without a length only the NUL is written. -/
theorem strncpy_zero (mem : ByteMem) (dest src : Nat) :
    strncpy mem dest src 0 = .ok (Function.update mem dest 0) := rfl

/-- With one, the whole string is copied. -/
theorem strncpy_str (hs : IsStr mem src n) (hapart : src + n < dest ∨ dest + n ≤ src)
    (hlen : 0 < len) :
    strncpy mem dest src len =
      .ok (Function.update (copied mem dest src n) (dest + n) 0) := by
  obtain ⟨l, rfl⟩ := Nat.exists_eq_succ_of_ne_zero (Nat.pos_iff_ne_zero.mp hlen)
  have hnul : copied mem dest src n (src + n) = 0 := by
    rw [copied_of_not_mem (by omega), hs.nul]
  have hin := hs.inside
  rw [strncpy, copyLoop, copyChars_str hs hapart (by omega)]
  show (copyLoop l (copied mem dest src n) (dest + n) (src + n) >>= fun r =>
    pure (Function.update r.1 r.2 0)) = _
  rw [copyLoop_nul hnul]
  rfl

/-- A string longer than `len` overruns: the byte that should be NUL is a character. -/
theorem strncpy_overrun (hs : IsStr mem src n) (hapart : src + n < dest ∨ dest + len < src)
    (hlen : 0 < len) (hlong : len < n) (h : strncpy mem dest src len = .ok mem') :
    mem' (dest + len) = mem (src + len) := by
  obtain ⟨l, rfl⟩ := Nat.exists_eq_succ_of_ne_zero (Nat.pos_iff_ne_zero.mp hlen)
  have hin := hs.inside
  obtain ⟨f, hf⟩ : ∃ f, addrSpace = f + (l + 1 + 1) := ⟨addrSpace - (l + 1 + 1), by omega⟩
  rw [strncpy, Kern.bind_eq_ok] at h
  obtain ⟨q, hq, hmem'⟩ := h
  rw [copyLoop, Kern.bind_eq_ok] at hq
  obtain ⟨r, hr, hq⟩ := hq
  -- the first `len + 1` characters, then whatever else the loops write behind them
  rw [hf, copyChars_steps (fun i hi => hs.chars i (by omega)) (by omega)] at hr
  obtain ⟨hle, hkeep⟩ := copyChars_below hr
  obtain ⟨hle', hkeep'⟩ := copyLoop_below hq
  cases hmem'
  rw [Function.update_of_ne (by omega), hkeep' _ (by omega), hkeep _ (by omega),
    copied_at (Nat.lt_succ_self _)]

/-- **When `strncpy` copies what it should.** -/
theorem strncpy_exact_iff (hs : IsStr mem src n) (hapart : src + n < dest ∨ dest + len < src) :
    StrncpyExact mem dest src n len ↔ n ≤ len ∨ len = 0 := by
  constructor
  · rintro ⟨mem', h, hc⟩
    by_contra hno
    obtain ⟨hlong, hpos⟩ := not_or.mp hno
    have hover := strncpy_overrun hs hapart (by omega) (by omega) h
    have hnul := hc.nul
    rw [Nat.min_eq_right (by omega), hover] at hnul
    exact hs.chars len (by omega) hnul
  · intro h
    by_cases hz : len = 0
    · subst hz
      refine ⟨_, strncpy_zero mem dest src, ?_, ?_, ?_⟩
      · intro i hi
        omega
      · rw [Nat.min_zero, Nat.add_zero, Function.update_self]
      · intro a ha
        exact Function.update_of_ne (by omega) ..
    · have hle := h.resolve_right hz
      refine ⟨_, strncpy_str hs (by omega) (by omega), ?_, ?_, ?_⟩
      · intro i hi
        rw [Function.update_of_ne (by omega), copied_at (by omega)]
      · rw [Nat.min_eq_left hle, Function.update_self]
      · intro a ha
        rw [Function.update_of_ne (by omega), copied_of_not_mem (by omega)]

end Hurlex
