import Mathlib.Data.List.Rotate
import Mathlib.Data.List.Nodup

/-!
# Going round a list

`nextRound p xs c` is the first element `p` accepts on the way from `c` around `xs`, with `c` itself
last. Going on from accepted element to accepted element comes round to all of them:
**`round_eq_rotate`**.
-/

namespace Hurlex.Lib

variable {α : Type*} [DecidableEq α]

/-- The first element `p` accepts after `c`, in the circular order of `xs`. -/
def nextRound (p : α → Bool) (xs : List α) (c : α) : Option α :=
  (xs.rotate (xs.idxOf c + 1)).find? p

variable {p : α → Bool} {xs ys pre post : List α} {c d : α}

theorem rotate_split (h : c ∉ pre) : (pre ++ c :: post).rotate ((pre ++ c :: post).idxOf c + 1) =
    post ++ pre ++ [c] := by
  have hi : (pre ++ c :: post).idxOf c + 1 = (pre ++ [c]).length := by
    rw [List.idxOf_append_of_notMem h, List.idxOf_cons_self, List.length_append]
    rfl
  have hs : pre ++ c :: post = (pre ++ [c]) ++ post := by simp
  rw [hi, hs, List.rotate_append_length_eq, List.append_assoc]

theorem nextRound_split (h : c ∉ pre) :
    nextRound p (pre ++ c :: post) c = (post ++ pre ++ [c]).find? p := by
  rw [nextRound, rotate_split h]

theorem nextRound_accepted (h : nextRound p xs c = some d) : p d = true := List.find?_some h

theorem nextRound_mem (h : nextRound p xs c = some d) : d ∈ xs :=
  List.mem_rotate.1 (List.mem_of_find?_eq_some h)

/-- Skipping what `p` rejects changes nothing for an accepted element. -/
theorem nextRound_filter (hc : c ∈ xs) (hp : p c = true) :
    nextRound p xs c = ((xs.filter p).rotate ((xs.filter p).idxOf c + 1)).head? := by
  obtain ⟨pre, post, rfl, hpre⟩ := List.eq_append_cons_of_mem hc
  have hf : c ∉ pre.filter p := fun h => hpre (List.mem_filter.1 h).1
  rw [nextRound_split hpre, ← List.head?_filter]
  simp only [List.filter_append, List.filter_cons, hp, if_true, List.filter_nil]
  rw [rotate_split hf]

section Round

variable {f : Nat → α} {r : Nat}

/-- Element `k` of the round that starts after `f 0`. -/
theorem round_getElem? (h0 : f 0 ∈ xs) (hp : p (f 0) = true) (hn : xs.Nodup)
    (hf : ∀ k < r, nextRound p xs (f k) = some (f (k + 1))) :
    ∀ {k : Nat}, k ≤ r → (xs.filter p)[((xs.filter p).idxOf (f 0) + k) % (xs.filter p).length]? =
      some (f k)
  | 0, _ => by
    have hm : f 0 ∈ xs.filter p := List.mem_filter.2 ⟨h0, hp⟩
    rw [Nat.add_zero, Nat.mod_eq_of_lt (List.idxOf_lt_length_iff.2 hm)]
    exact List.getElem?_eq_some_iff.2 ⟨List.idxOf_lt_length_iff.2 hm, List.getElem_idxOf _⟩
  | k + 1, hk => by
    have ih := round_getElem? h0 hp hn hf (k := k) (by omega)
    have hm : f k ∈ xs.filter p := List.mem_of_getElem? ih
    have hlen : 0 < (xs.filter p).length := List.length_pos_of_mem hm
    have hnext := hf k (by omega)
    rw [nextRound_filter (List.mem_filter.1 hm).1 (List.mem_filter.1 hm).2,
      List.head?_eq_getElem?, List.getElem?_rotate hlen, Nat.zero_add] at hnext
    obtain ⟨hlt, hget⟩ := List.getElem?_eq_some_iff.1 ih
    have hi : (xs.filter p).idxOf (f k) =
        ((xs.filter p).idxOf (f 0) + k) % (xs.filter p).length := by
      rw [← hget]
      exact (hn.filter p).idxOf_getElem _ _
    rw [hi, Nat.mod_add_mod] at hnext
    exact hnext

/-- **One round.** As many steps as there are accepted elements meet them all, in circular order and
each once. -/
theorem round_eq_rotate (h0 : f 0 ∈ xs) (hp : p (f 0) = true) (hn : xs.Nodup)
    (hr : r = (xs.filter p).length)
    (hf : ∀ k < r, nextRound p xs (f k) = some (f (k + 1))) :
    (List.range r).map (fun k => f (k + 1)) =
      (xs.filter p).rotate ((xs.filter p).idxOf (f 0) + 1) := by
  refine List.ext_getElem? fun k => ?_
  by_cases hk : k < r
  · rw [List.getElem?_map, List.getElem?_range hk, Option.map_some,
      List.getElem?_rotate (hr ▸ hk), ← round_getElem? h0 hp hn hf (k := k + 1) hk]
    congr 2
    omega
  · rw [List.getElem?_eq_none (by simpa using hk),
      List.getElem?_eq_none (by simpa [← hr] using hk)]

/-- A round ends where it started. -/
theorem round_end (h0 : f 0 ∈ xs) (hp : p (f 0) = true) (hn : xs.Nodup)
    (hr : r = (xs.filter p).length)
    (hf : ∀ k < r, nextRound p xs (f k) = some (f (k + 1))) : f r = f 0 := by
  have hend := round_getElem? h0 hp hn hf (Nat.le_refl r)
  have hstart := round_getElem? h0 hp hn hf (Nat.zero_le r)
  rw [hr, Nat.add_mod_right] at hend
  rw [Nat.add_zero, hend] at hstart
  exact hr ▸ Option.some.inj hstart

end Round

end Hurlex.Lib
