import Mathlib.Data.List.Nodup
import Mathlib.Data.List.Perm.Subperm
import Hurlex.StringCompare

/-!
# Registering devices and file systems

`add_char_dev` (`driver/char_dev.c`), `add_block_dev` (`driver/block_dev.c`) and `add_filesystem`
(`fs/vfs.c`) are one function over three lists: the new structure goes to the front, unless a
structure with its name is on the list.

A structure is its address; `name` is where its name is, which nothing changes.

* **`registry_run`**: whatever is registered in whatever order, the same structure twice included, the
  calls return, the first structure of each name stays, and the list ends.
-/

namespace Hurlex

/-- A list of registered structures: the global pointer, and the `next` field of every structure. -/
structure Registry where
  head : Nat
  next : Nat → Nat

section Code

variable (mem : ByteMem) (name : Nat → Nat)

/-- The loop: is the name of `dev` on the list from `p` on? -/
def registryFind (next : Nat → Nat) (dev : Nat) : Nat → Nat → Kern Bool
  | 0, _ => .error .noReturn
  | fuel + 1, p =>
    if p = 0 then .ok false
    else do
      let ret ← strcmp mem (name p) (name dev)
      if ret = 0 then return true else registryFind next dev fuel (next p)

def registryAdd (r : Registry) (dev : Nat) : Kern (Int × Registry) := do
  let found ← registryFind mem name r.next dev addrSpace r.head
  if found then return (-1, r)
  else return (0, ⟨dev, Function.update r.next dev r.head⟩)

/-- `add_char_dev`, with `char_devs` and the `next` fields. -/
def addCharDev : Registry → Nat → Kern (Int × Registry) := registryAdd mem name

/-- `add_block_dev`, with `block_devs` and the `next` fields. -/
def addBlockDev : Registry → Nat → Kern (Int × Registry) := registryAdd mem name

/-- `add_filesystem`, with `file_systems` and the `next` fields. -/
def addFilesystem : Registry → Nat → Kern (Int × Registry) := registryAdd mem name

/-- Several calls: the results in order, and the list. -/
def registryAddAll : Registry → List Nat → Kern (List Int × Registry)
  | r, [] => .ok ([], r)
  | r, dev :: devs => do
    let (ret, r) ← registryAdd mem name r dev
    let (rets, r) ← registryAddAll r devs
    return (ret :: rets, r)

end Code

/-! ## What is on the list -/

/-- From `p` on the list is `devs`, and then it ends. -/
def Listed (next : Nat → Nat) : Nat → List Nat → Prop
  | p, [] => p = 0
  | p, dev :: devs => p = dev ∧ dev ≠ 0 ∧ Listed next (next dev) devs

section Firsts

variable {K : Type} [DecidableEq K] (key : Nat → K)

/-- `dev` in front, if its name is new. -/
def putFirst (acc : List Nat) (dev : Nat) : List Nat :=
  if key dev ∈ acc.map key then acc else dev :: acc

/-- The first structure of each name, the last one registered first. -/
def firsts (acc devs : List Nat) : List Nat := devs.foldl (putFirst key) acc

/-- The result of a call when the names in `taken` are taken. -/
def answer (taken : List K) (dev : Nat) : Int := if key dev ∈ taken then -1 else 0

def answers (taken : List K) : List Nat → List Int
  | [] => []
  | dev :: devs => answer key taken dev :: answers (key dev :: taken) devs

end Firsts

variable {mem : ByteMem} {name len next : Nat → Nat} {devs acc : List Nat} {dev p fuel : Nat}

theorem Listed.update (hl : Listed next p devs) (hd : dev ∉ devs) (v : Nat) :
    Listed (Function.update next dev v) p devs := by
  induction devs generalizing p with
  | nil => exact hl
  | cons d devs ih =>
    obtain ⟨hp, h0, hl⟩ := hl
    rw [List.mem_cons, not_or] at hd
    refine ⟨hp, h0, ?_⟩
    rw [Function.update_of_ne (Ne.symm hd.1)]
    exact ih hl hd.2

/-- A structure that can be registered: it is in the address space, and so is its name. -/
structure Named (mem : ByteMem) (name len : Nat → Nat) (dev : Nat) : Prop where
  ne_zero : dev ≠ 0
  inside : dev < addrSpace
  str : IsStr mem (name dev) (len dev)

/-- The name of a structure. -/
def nameOf (mem : ByteMem) (name len : Nat → Nat) (dev : Nat) : List (BitVec 8) :=
  chars mem (name dev) (len dev)

/-- **The loop looks for the name**, and comes to an end if the list does. -/
theorem registryFind_eq (hl : Listed next p acc) (ha : ∀ d ∈ acc, Named mem name len d)
    (hd : Named mem name len dev) (hf : acc.length < fuel) :
    registryFind mem name next dev fuel p =
      .ok (decide (nameOf mem name len dev ∈ acc.map (nameOf mem name len))) := by
  induction acc generalizing p fuel with
  | nil =>
    obtain ⟨fuel, rfl⟩ := Nat.exists_eq_succ_of_ne_zero (Nat.ne_of_gt hf)
    have hp : p = 0 := hl
    rw [registryFind, if_pos hp]
    rfl
  | cons d acc ih =>
    obtain ⟨fuel, rfl⟩ := Nat.exists_eq_succ_of_ne_zero (Nat.ne_of_gt (Nat.lt_of_le_of_lt
      (Nat.zero_le _) hf))
    obtain ⟨rfl, h0, hl⟩ := hl
    obtain ⟨ret, hret, -, heq, -⟩ := strcmp_reversed (ha p List.mem_cons_self).str hd.str
    have heq : ret = 0 ↔ nameOf mem name len p = nameOf mem name len dev := heq
    rw [registryFind, if_neg h0, hret]
    show (if ret = 0 then (.ok true : Kern Bool) else _) = _
    by_cases hz : ret = 0
    · have hmem : nameOf mem name len dev ∈ (p :: acc).map (nameOf mem name len) := by
        rw [List.map_cons, heq.1 hz]
        exact List.mem_cons_self
      rw [if_pos hz, decide_eq_true hmem]
    · have hne : nameOf mem name len dev ≠ nameOf mem name len p := fun h => hz (heq.2 h.symm)
      rw [if_neg hz, ih hl (fun d hd => ha d (List.mem_cons_of_mem p hd)) (by simpa using hf)]
      simp [hne]

/-- Structures with different names fit into the address space. -/
theorem length_lt (ha : ∀ d ∈ acc, Named mem name len d)
    (hn : (acc.map (nameOf mem name len)).Nodup) : acc.length < addrSpace := by
  have hnodup : (0 :: acc).Nodup :=
    List.nodup_cons.2 ⟨fun h0 => (ha 0 h0).ne_zero rfl, List.Nodup.of_map _ hn⟩
  have hsub : 0 :: acc ⊆ List.range addrSpace := by
    intro d hd
    rw [List.mem_range]
    rcases List.mem_cons.1 hd with rfl | hd
    · decide
    · exact (ha d hd).inside
  have hle := (List.subperm_of_subset hnodup hsub).length_le
  rw [List.length_range, List.length_cons] at hle
  exact hle

/-- A list with one structure of each name. -/
structure Registered (mem : ByteMem) (name len : Nat → Nat) (r : Registry) (acc : List Nat) :
    Prop where
  listed : Listed r.next r.head acc
  named : ∀ d ∈ acc, Named mem name len d
  names : (acc.map (nameOf mem name len)).Nodup

/-- **One call.** -/
theorem Registered.add {r : Registry} (hr : Registered mem name len r acc)
    (hd : Named mem name len dev) : ∃ r', registryAdd mem name r dev =
      .ok (answer (nameOf mem name len) (acc.map (nameOf mem name len)) dev, r') ∧
      Registered mem name len r' (putFirst (nameOf mem name len) acc dev) := by
  have hfind := registryFind_eq hr.listed hr.named hd (length_lt hr.named hr.names)
  unfold registryAdd putFirst answer
  rw [hfind]
  by_cases hmem : nameOf mem name len dev ∈ acc.map (nameOf mem name len)
  · rw [if_pos hmem, if_pos hmem, decide_eq_true hmem]
    exact ⟨r, rfl, hr⟩
  · rw [if_neg hmem, if_neg hmem, decide_eq_false hmem]
    have hout : dev ∉ acc := fun h => hmem (List.mem_map_of_mem h)
    refine ⟨⟨dev, Function.update r.next dev r.head⟩, rfl, ⟨rfl, hd.ne_zero, ?_⟩, ?_, ?_⟩
    · show Listed _ (Function.update r.next dev r.head dev) acc
      rw [Function.update_self]
      exact hr.listed.update hout r.head
    · intro d h
      rcases List.mem_cons.1 h with rfl | h
      · exact hd
      · exact hr.named d h
    · exact List.nodup_cons.2 ⟨hmem, hr.names⟩

section Firsts

variable {K : Type} [DecidableEq K] {key : Nat → K}

/-- The answers depend on which names are taken, not on their order. -/
theorem answers_congr {ks ks' : List K} (h : ∀ k, k ∈ ks ↔ k ∈ ks') (devs : List Nat) :
    answers key ks devs = answers key ks' devs := by
  induction devs generalizing ks ks' with
  | nil => rfl
  | cons d devs ih =>
    rw [answers, answers, ih fun k => (by simp [h k] : k ∈ key d :: ks ↔ k ∈ key d :: ks')]
    simp only [answer, h]

theorem length_answers (ks : List K) (devs : List Nat) :
    (answers key ks devs).length = devs.length := by
  induction devs generalizing ks with
  | nil => rfl
  | cons d devs ih => exact congrArg Nat.succ (ih _)

/-- The answer to one of the calls. -/
theorem getElem?_answers (ks : List K) (pre post : List Nat) (d : Nat) :
    (answers key ks (pre ++ d :: post))[pre.length]? =
      some (answer key ((pre.map key).reverse ++ ks) d) := by
  induction pre generalizing ks with
  | nil => rfl
  | cons e pre ih =>
    show (answers key (key e :: ks) (pre ++ d :: post))[pre.length]? = _
    rw [ih, List.map_cons, List.reverse_cons, List.append_assoc]
    rfl

theorem mem_map_putFirst (acc : List Nat) (dev : Nat) (k : K) :
    k ∈ (putFirst key acc dev).map key ↔ k ∈ key dev :: acc.map key := by
  unfold putFirst
  split
  case isTrue hmem =>
    rw [List.mem_cons]
    exact ⟨.inr, fun h => h.elim (fun e => e ▸ hmem) id⟩
  case isFalse => rfl

/-- **The first of each name.** -/
theorem mem_firsts (acc devs : List Nat) (d : Nat) :
    d ∈ firsts key acc devs ↔ d ∈ acc ∨ ∃ pre post, devs = pre ++ d :: post ∧
      key d ∉ acc.map key ∧ key d ∉ pre.map key := by
  induction devs generalizing acc with
  | nil => simp [firsts]
  | cons e devs ih =>
    have hput : ∀ k, k ∉ (putFirst key acc e).map key ↔ k ≠ key e ∧ k ∉ acc.map key := by
      intro k
      rw [mem_map_putFirst, List.mem_cons, not_or]
    show d ∈ firsts key (putFirst key acc e) devs ↔ _
    rw [ih]
    constructor
    · rintro (hm | ⟨pre, post, rfl, h1, h2⟩)
      · unfold putFirst at hm
        split at hm
        case isTrue => exact .inl hm
        case isFalse hnew =>
          rcases List.mem_cons.1 hm with rfl | hm
          · exact .inr ⟨[], devs, rfl, hnew, List.not_mem_nil⟩
          · exact .inl hm
      · obtain ⟨hne, hout⟩ := (hput _).1 h1
        refine .inr ⟨e :: pre, post, rfl, hout, ?_⟩
        rw [List.map_cons, List.mem_cons, not_or]
        exact ⟨hne, h2⟩
    · rintro (hm | ⟨pre, post, hsplit, h1, h2⟩)
      · left
        unfold putFirst
        split
        case isTrue => exact hm
        case isFalse => exact List.mem_cons_of_mem e hm
      · cases pre with
        | nil =>
          obtain ⟨rfl, rfl⟩ := List.cons.inj hsplit
          left
          rw [putFirst, if_neg h1]
          exact List.mem_cons_self
        | cons f pre =>
          obtain ⟨rfl, rfl⟩ := List.cons.inj hsplit
          rw [List.map_cons, List.mem_cons, not_or] at h2
          exact .inr ⟨pre, post, rfl, (hput _).2 ⟨h2.1, h1⟩, h2.2⟩

end Firsts

theorem Registered.addAll {r : Registry} (hr : Registered mem name len r acc)
    (hd : ∀ d ∈ devs, Named mem name len d) :
    ∃ r', registryAddAll mem name r devs =
      .ok (answers (nameOf mem name len) (acc.map (nameOf mem name len)) devs, r') ∧
      Registered mem name len r' (firsts (nameOf mem name len) acc devs) := by
  induction devs generalizing r acc with
  | nil => exact ⟨r, rfl, hr⟩
  | cons dev devs ih =>
    obtain ⟨r₁, hadd, hr₁⟩ := hr.add (hd dev List.mem_cons_self)
    obtain ⟨r₂, hall, hr₂⟩ := ih hr₁ fun d h => hd d (List.mem_cons_of_mem dev h)
    refine ⟨r₂, ?_, hr₂⟩
    rw [answers_congr (mem_map_putFirst acc dev)] at hall
    simp only [registryAddAll, hadd, hall, bind, Except.bind, pure, Except.pure, answers]

/-! ## The run -/

/-- **Registering in any order.** All calls return; a structure gets 0 exactly if no structure with its
name was given before; and the list holds exactly these, each name once, and ends. -/
theorem registry_run (hd : ∀ d ∈ devs, Named mem name len d) (next : Nat → Nat) :
    ∃ rets r', registryAddAll mem name ⟨0, next⟩ devs = .ok (rets, r') ∧
      rets.length = devs.length ∧
      (∀ pre d post, devs = pre ++ d :: post → rets[pre.length]? =
        some (if nameOf mem name len d ∈ pre.map (nameOf mem name len) then -1 else 0)) ∧
      ∃ acc, Listed r'.next r'.head acc ∧ (acc.map (nameOf mem name len)).Nodup ∧
        ∀ d, d ∈ acc ↔ ∃ pre post, devs = pre ++ d :: post ∧
          nameOf mem name len d ∉ pre.map (nameOf mem name len) := by
  have hnone : Registered mem name len ⟨0, next⟩ [] := ⟨rfl, by simp, List.nodup_nil⟩
  obtain ⟨r', hrun, hr'⟩ := hnone.addAll hd
  refine ⟨_, r', hrun, length_answers _ _, ?_, _, hr'.listed, hr'.names, fun d => ?_⟩
  · rintro pre d post rfl
    rw [getElem?_answers, answer]
    simp only [List.map_nil, List.append_nil, List.mem_reverse]
  · rw [mem_firsts]
    simp

/-- Three structures, two of them called `a`. -/
theorem registry_run_three : ∃ rets r',
    registryAddAll twoLetters (fun d => if d = 32 then 0x2000 else 0x1000) ⟨0, fun _ => 0⟩
      [16, 32, 48] = .ok (rets, r') ∧ rets[2]? = some (-1) := by
  have hd : ∀ d ∈ [16, 32, 48],
      Named twoLetters (fun d => if d = 32 then 0x2000 else 0x1000) (fun _ => 1) d := by
    intro d hd
    have hin : d = 16 ∨ d = 32 ∨ d = 48 := by simpa using hd
    rcases hin with rfl | rfl | rfl
    · exact ⟨by decide, by decide, twoLetters_a⟩
    · exact ⟨by decide, by decide, twoLetters_b⟩
    · exact ⟨by decide, by decide, twoLetters_a⟩
  obtain ⟨rets, r', hrun, -, hrets, -⟩ := registry_run hd fun _ => 0
  exact ⟨rets, r', hrun, hrets [16, 32] 48 [] rfl⟩

end Hurlex
