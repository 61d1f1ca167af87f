import Hurlex.String

/-!
# Comparing strings (`lib/string.c`)

`strcmp` runs through both strings as long as their bytes agree and its first argument has not ended.
The header calls the arguments `str1` and `str2`; the definition calls them `dest` and `src`, and takes
the byte of `dest` away from the byte of `src`.

* **`strcmpLoop_spec`**: the loop stops at the end of either string at the latest, with a difference
  that says which of the two comes first.
* **`strcmp_reversed`**: the string that comes first is the one the result says comes last. That a
  result is zero for equal strings only is all that the callers use.
* **`compares_iff`**: so `strcmp` orders two strings right if there is nothing to order.
-/

namespace Hurlex

/-- `while (!(ret = *src - *dest) && *dest)`, on unsigned characters: `ret` and both pointers
afterwards. -/
def strcmpLoop : Nat → ByteMem → Nat → Nat → Kern (Int × Nat × Nat)
  | 0, _, _, _ => .error .noReturn
  | fuel + 1, mem, dest, src =>
    let ret : Int := (mem src).toNat - (mem dest).toNat
    if ret = 0 ∧ mem dest ≠ 0 then strcmpLoop fuel mem (dest + 1) (src + 1)
    else .ok (ret, dest, src)

/-- What is made of `ret` behind the loop. -/
def retSign (ret : Int) : Int := if ret < 0 then -1 else if ret > 0 then 1 else ret

def strcmp (mem : ByteMem) (dest src : Nat) : Kern Int := do
  let r ← strcmpLoop addrSpace mem dest src
  return retSign r.1

/-! ## What a comparison should say -/

/-- `strcmp` stops in both strings, at their first NUL at the latest, and its result is the
lexicographic order of what is in front of the NULs. -/
structure Compares (mem : ByteMem) (a m b n : Nat) : Prop where
  stops : ∃ k ret, strcmpLoop addrSpace mem a b = .ok (ret, a + k, b + k) ∧ k ≤ m ∧ k ≤ n
  order : ∃ ret, strcmp mem a b = .ok ret ∧ (ret = 0 ↔ chars mem a m = chars mem b n) ∧
    (ret = -1 ↔ chars mem a m < chars mem b n) ∧ (ret = 1 ↔ chars mem b n < chars mem a m)

variable {mem : ByteMem} {a b m n fuel : Nat}

/-- Where two bytes differ the loop stops, and the difference is their order. -/
theorem strcmpLoop_ne (h : mem a ≠ mem b) :
    strcmpLoop (fuel + 1) mem a b = .ok ((mem b).toNat - (mem a).toNat, a, b) := by
  have hne : (mem a).toNat ≠ (mem b).toNat := fun heq => h (BitVec.eq_of_toNat_eq heq)
  rw [strcmpLoop]
  exact if_neg (by omega)

/-- The loop stops where both strings end. -/
theorem strcmpLoop_nul (ha : mem a = 0) (hb : mem b = 0) :
    strcmpLoop (fuel + 1) mem a b = .ok (0, a, b) := by
  rw [strcmpLoop, ha, hb]
  rfl

/-- Equal characters are passed over. -/
theorem strcmpLoop_eq (ha : mem a ≠ 0) (h : mem a = mem b) :
    strcmpLoop (fuel + 1) mem a b = strcmpLoop fuel mem (a + 1) (b + 1) := by
  rw [strcmpLoop, h]
  exact if_pos ⟨Int.sub_self _, h ▸ ha⟩

/-- Behind equal characters the order is that of the rest. -/
theorem chars_lt_of_eq (h : mem a = mem b) :
    chars mem a (m + 1) < chars mem b (n + 1) ↔ chars mem (a + 1) m < chars mem (b + 1) n := by
  rw [chars, chars, List.cons_lt_cons_iff, h, or_iff_right (BitVec.lt_irrefl _), and_iff_right rfl]

/-- Different characters decide the order. -/
theorem chars_lt_of_ne (h : mem a ≠ mem b) :
    chars mem a (m + 1) < chars mem b (n + 1) ↔ (mem a).toNat < (mem b).toNat := by
  rw [chars, chars, List.cons_lt_cons_iff, or_iff_left fun heq => h heq.1, BitVec.lt_def]

/-- **The loop on two strings**: it stops in both, and the sign of the difference is their order,
with the second string in front of the first if it is negative. -/
theorem strcmpLoop_spec : ∀ {m n a b fuel : Nat}, IsStr mem a m → IsStr mem b n → m < fuel →
    ∃ k ret, strcmpLoop fuel mem a b = .ok (ret, a + k, b + k) ∧ k ≤ m ∧ k ≤ n ∧
      (ret = 0 ↔ chars mem a m = chars mem b n) ∧ (0 < ret ↔ chars mem a m < chars mem b n) ∧
      (ret < 0 ↔ chars mem b n < chars mem a m)
  | _, _, _, _, 0, _, _, hfuel => absurd hfuel (Nat.not_lt_zero _)
  | 0, 0, a, b, fuel + 1, ha, hb, _ => by
    refine ⟨0, 0, strcmpLoop_nul ha.nul hb.nul, Nat.le_refl _, Nat.le_refl _, ?_, ?_, ?_⟩
    · simp [chars]
    · simp [chars]
    · simp [chars]
  | 0, n + 1, a, b, fuel + 1, ha, hb, _ => by
    have hnul : mem a = 0 := ha.nul
    have hzero : (mem a).toNat = 0 := congrArg BitVec.toNat hnul
    have hpos : (mem b).toNat ≠ 0 := fun h => hb.head (BitVec.eq_of_toNat_eq h)
    have hne : mem a ≠ mem b := hnul ▸ hb.head.symm
    refine ⟨0, _, strcmpLoop_ne hne, Nat.le_refl _, Nat.zero_le _, ?_, ?_, ?_⟩
    · exact iff_of_false (by omega) (List.cons_ne_nil _ _).symm
    · exact iff_of_true (by omega) (List.nil_lt_cons _ _)
    · exact iff_of_false (by omega) (List.not_lt_nil _)
  | m + 1, 0, a, b, fuel + 1, ha, hb, _ => by
    have hnul : mem b = 0 := hb.nul
    have hzero : (mem b).toNat = 0 := congrArg BitVec.toNat hnul
    have hpos : (mem a).toNat ≠ 0 := fun h => ha.head (BitVec.eq_of_toNat_eq h)
    have hne : mem a ≠ mem b := hnul ▸ ha.head
    refine ⟨0, _, strcmpLoop_ne hne, Nat.zero_le _, Nat.le_refl _, ?_, ?_, ?_⟩
    · exact iff_of_false (by omega) (List.cons_ne_nil _ _)
    · exact iff_of_false (by omega) (List.not_lt_nil _)
    · exact iff_of_true (by omega) (List.nil_lt_cons _ _)
  | m + 1, n + 1, a, b, fuel + 1, ha, hb, hfuel => by
    by_cases heq : mem a = mem b
    · obtain ⟨k, ret, hloop, hm, hn, h0, hlt, hgt⟩ :=
        strcmpLoop_spec ha.tail hb.tail (Nat.lt_of_succ_lt_succ hfuel)
      refine ⟨k + 1, ret, ?_, Nat.succ_le_succ hm, Nat.succ_le_succ hn, ?_, ?_, ?_⟩
      · rw [strcmpLoop_eq ha.head heq, hloop, Nat.add_right_comm a, Nat.add_right_comm b]
        rfl
      · rw [h0, chars, chars, heq, List.cons_inj_right]
      · rw [hlt, chars_lt_of_eq heq]
      · rw [hgt, chars_lt_of_eq heq.symm]
    · have hne : (mem a).toNat ≠ (mem b).toNat := fun h => heq (BitVec.eq_of_toNat_eq h)
      refine ⟨0, _, strcmpLoop_ne heq, Nat.zero_le _, Nat.zero_le _, ?_, ?_, ?_⟩
      · refine iff_of_false (by omega) fun hchars => heq ?_
        rw [chars, chars] at hchars
        exact (List.cons.inj hchars).1
      · rw [chars_lt_of_ne heq]
        omega
      · rw [chars_lt_of_ne (Ne.symm heq)]
        omega

theorem retSign_spec (ret : Int) : (retSign ret = 0 ∨ retSign ret = 1 ∨ retSign ret = -1) ∧
    (retSign ret = 0 ↔ ret = 0) ∧ (retSign ret = 1 ↔ 0 < ret) ∧ (retSign ret = -1 ↔ ret < 0) := by
  unfold retSign
  split
  · omega
  · split <;> omega

/-- **The result is the order of the strings the other way round.** -/
theorem strcmp_reversed (ha : IsStr mem a m) (hb : IsStr mem b n) :
    ∃ ret, strcmp mem a b = .ok ret ∧ (ret = 0 ∨ ret = 1 ∨ ret = -1) ∧
      (ret = 0 ↔ chars mem a m = chars mem b n) ∧
      (ret = 1 ↔ chars mem a m < chars mem b n) ∧
      (ret = -1 ↔ chars mem b n < chars mem a m) := by
  have hfuel : m < addrSpace := Nat.lt_of_le_of_lt (Nat.le_add_left _ _) ha.inside
  obtain ⟨k, ret, hloop, -, -, h0, hlt, hgt⟩ := strcmpLoop_spec ha hb hfuel
  obtain ⟨hval, hzero, hone, hneg⟩ := retSign_spec ret
  refine ⟨retSign ret, ?_, hval, hzero.trans h0, hone.trans hlt, hneg.trans hgt⟩
  rw [strcmp, hloop]
  rfl

/-- **When `strcmp` orders two strings right.** -/
theorem compares_iff (ha : IsStr mem a m) (hb : IsStr mem b n) :
    Compares mem a m b n ↔ chars mem a m = chars mem b n := by
  have hfuel : m < addrSpace := Nat.lt_of_le_of_lt (Nat.le_add_left _ _) ha.inside
  obtain ⟨ret, hret, hval, h0, h1, h2⟩ := strcmp_reversed ha hb
  constructor
  · rintro ⟨-, ret', hret', -, hlt, hgt⟩
    obtain rfl := Except.ok.inj (hret.symm.trans hret')
    rcases hval with h | h | h
    · exact h0.1 h
    · have hswap := hlt.2 (h1.1 h)
      omega
    · have hswap := hgt.2 (h2.1 h)
      omega
  · intro heq
    obtain ⟨k, ret', hloop, hm, hn, -⟩ := strcmpLoop_spec ha hb hfuel
    have hz := h0.2 heq
    refine ⟨⟨k, ret', hloop, hm, hn⟩, ret, hret, h0, ?_, ?_⟩
    · rw [← h1]
      omega
    · rw [← h2]
      omega

/-- `"a"` at `0x1000` and `"b"` at `0x2000`. -/
def twoLetters : ByteMem := fun i => if i = 0x1000 then 0x61 else if i = 0x2000 then 0x62 else 0

theorem twoLetters_a : IsStr twoLetters 0x1000 1 where
  chars i hi := by
    obtain rfl : i = 0 := by omega
    decide
  nul := by decide
  inside := by decide

theorem twoLetters_b : IsStr twoLetters 0x2000 1 where
  chars i hi := by
    obtain rfl : i = 0 := by omega
    decide
  nul := by decide
  inside := by decide

theorem compares_iff_letters : Compares twoLetters 0x1000 1 0x2000 1 ↔
    chars twoLetters 0x1000 1 = chars twoLetters 0x2000 1 :=
  compares_iff twoLetters_a twoLetters_b

/-- `strcmp("a", "b")` is 1. -/
theorem not_compares : ¬ ∀ (mem : ByteMem) (a m b n : Nat), IsStr mem a m → IsStr mem b n →
    Compares mem a m b n := by
  intro h
  obtain ⟨-, ret', hret', -, hlt, -⟩ := h twoLetters 0x1000 1 0x2000 1 twoLetters_a twoLetters_b
  obtain ⟨ret, hret, -, -, h1, -⟩ := strcmp_reversed twoLetters_a twoLetters_b
  obtain rfl := Except.ok.inj (hret.symm.trans hret')
  have hbefore : chars twoLetters 0x1000 1 < chars twoLetters 0x2000 1 := by decide
  have hpos := h1.2 hbefore
  have hneg := hlt.2 hbefore
  omega

end Hurlex
