import Hurlex.Driver.KboardQueue

/-!
# The keys that are held down

Ctrl, Alt and the two shift keys keep no state after they are released: `keyboard_handler` clears their
bit of `controls` on the break code. On the make code it does what it does for the lock keys, it turns
the bit over, and a key that stays down sends its make code again and again.

**`keyboardHandler_held`**: what one scancode does to the bit of a key.
**`held_iff_not_repeated`**: the bits say which keys are down exactly as long as no make code is
repeated.
-/

namespace Hurlex.Kboard

/-- The control keys that "keep no state after they are released". -/
inductive Modifier where
  | ctrl
  | alt
  | lshift
  | rshift
  deriving DecidableEq

namespace Modifier

/-- Its place in `control_map`, and its bit of `controls`. -/
def bit : Modifier → Nat
  | ctrl => 0
  | alt => 1
  | lshift => 3
  | rshift => 4

def makeCode (m : Modifier) : Byte := usKeymap.controlMap.getD m.bit 0

def breakCode (m : Modifier) : Byte := m.makeCode ||| releasedMask

/-- Whether the driver takes the key for pressed. -/
def held (m : Modifier) (d : KboardDevice) : Bool := d.currLayout.controls.getLsbD m.bit

/-- The last make or break code of the key. -/
def lastCode (m : Modifier) (codes : List Byte) : Option Byte :=
  codes.reverse.find? fun c => c == m.makeCode || c == m.breakCode

end Modifier

/-- The scancodes come in one after the other. -/
def deliver (d : KboardDevice) (codes : List Byte) : KboardDevice :=
  codes.foldl keyboardHandler d

/-- After each byte, the bit of each key says whether its last code was a make code. -/
def Tracks (d : KboardDevice) (codes : List Byte) : Prop :=
  ∀ pre, pre <+: codes → ∀ m : Modifier,
    m.held (deliver d pre) = true ↔ m.lastCode pre = some m.makeCode

/-- No key sends its make code twice without a break code in between. -/
def NotRepeated (codes : List Byte) : Prop :=
  ∀ m : Modifier, ∀ pre, pre ++ [m.makeCode] <+: codes → m.lastCode pre ≠ some m.makeCode

/-! ## One scancode -/

variable {d : KboardDevice} {m : Modifier} {c : Byte} {pre codes : List Byte}

theorem enqueue_currLayout (d : KboardDevice) (ch : Byte) :
    (enqueue d ch).currLayout = d.currLayout := by
  unfold enqueue
  split <;> rfl

/-- The controls are all a scancode changes of the layout. -/
theorem keyboardHandler_controlMap (d : KboardDevice) (c : Byte) :
    (keyboardHandler d c).currLayout.controlMap = d.currLayout.controlMap := by
  cases h : d.currLayout.typed c with
  | none =>
    obtain ⟨controls, h⟩ := keyboardHandler_of_none h
    rw [h]
    rfl
  | some ch => rw [keyboardHandler_of_some h, enqueue_currLayout]

/-- The layout after a scancode depends on the layout before it only, not on the queue. -/
theorem keyboardHandler_currLayout_congr {d d' : KboardDevice}
    (h : d.currLayout = d'.currLayout) (c : Byte) :
    (keyboardHandler d c).currLayout = (keyboardHandler d' c).currLayout := by
  unfold keyboardHandler KboardDevice.setControls
  dsimp only
  rw [h]
  split
  · split
    · rfl
    · exact h
  · split
    · split <;> rfl
    · rw [enqueue_currLayout, enqueue_currLayout, h]

theorem Modifier.makeCode_ne_breakCode (m : Modifier) : m.makeCode ≠ m.breakCode := by
  cases m <;> decide

/-- The key a make code is looked up as. -/
theorem controlIndex_make (m : Modifier) : ∀ c : Byte, c &&& releasedMask = 0 →
    (usKeymap.controlIndex 8 c = some m.bit ↔ c = m.makeCode) ∧ c ≠ m.breakCode := by
  cases m <;> decide +kernel

/-- The key a break code is looked up as, among the first five. -/
theorem controlIndex_break (m : Modifier) : ∀ c : Byte, c &&& releasedMask ≠ 0 →
    (usKeymap.controlIndex 5 (c &&& ~~~releasedMask) = some m.bit ↔ c = m.breakCode) ∧
      c ≠ m.makeCode := by
  cases m <;> decide +kernel

theorem Modifier.bit_lt (m : Modifier) : m.bit < 8 := by
  cases m <;> decide

/-- `controls &= ~(1 << i)` reaches the bit of a key from the key's own place only. -/
theorem held_clear (d : KboardDevice) (m : Modifier) (i : Nat) :
    m.held (d.setControls (d.currLayout.controls &&& ~~~BitVec.twoPow 8 i)) =
      if i = m.bit then false else m.held d := by
  show (d.currLayout.controls &&& ~~~BitVec.twoPow 8 i).getLsbD m.bit = _
  rw [BitVec.getLsbD_and, BitVec.getLsbD_not, BitVec.getLsbD_twoPow]
  by_cases hi : i = m.bit
  · simp [hi, m.bit_lt]
  · simp [hi, m.bit_lt, Modifier.held]

/-- `controls |= 1 << i`. -/
theorem held_set (d : KboardDevice) (m : Modifier) (i : Nat) :
    m.held (d.setControls (d.currLayout.controls ||| BitVec.twoPow 8 i)) =
      if i = m.bit then true else m.held d := by
  show (d.currLayout.controls ||| BitVec.twoPow 8 i).getLsbD m.bit = _
  rw [BitVec.getLsbD_or, BitVec.getLsbD_twoPow]
  by_cases hi : i = m.bit
  · simp [hi, m.bit_lt]
  · simp [hi, Modifier.held]

/-- `controls & 1 << i`, at the key's own place. -/
theorem and_twoPow_ne_zero (d : KboardDevice) (m : Modifier) :
    d.currLayout.controls &&& BitVec.twoPow 8 m.bit ≠ 0 ↔ m.held d = true := by
  have hpow : BitVec.twoPow 8 m.bit ≠ 0 := by
    cases m <;> decide
  rw [BitVec.and_twoPow, Modifier.held]
  split
  · rename_i h
    exact iff_of_true hpow h
  · rename_i h
    exact iff_of_false (not_not.2 rfl) h

/-- **What one scancode does to the bit of a key**: the break code clears it, the make code turns it
over, and no other scancode changes it. -/
theorem keyboardHandler_held (hd : d.currLayout.controlMap = usKeymap.controlMap) (m : Modifier)
    (c : Byte) : m.held (keyboardHandler d c) =
      if c = m.breakCode then false else if c = m.makeCode then !m.held d else m.held d := by
  have hindex : ∀ n key, d.currLayout.controlIndex n key = usKeymap.controlIndex n key := by
    intro n key
    rw [Keymap.controlIndex, hd, Keymap.controlIndex]
  unfold keyboardHandler
  dsimp only
  rw [hindex, hindex]
  by_cases hrel : c &&& releasedMask ≠ 0
  · rw [if_pos hrel]
    obtain ⟨hbreak, hne⟩ := controlIndex_break m c hrel
    rw [if_neg hne]
    cases hi : usKeymap.controlIndex 5 (c &&& ~~~releasedMask) with
    | none =>
      rw [hi] at hbreak
      rw [if_neg fun h => Option.some_ne_none _ (hbreak.2 h).symm]
    | some i =>
      rw [hi, Option.some_inj] at hbreak
      dsimp only
      rw [held_clear]
      simp only [hbreak]
  · rw [if_neg hrel]
    obtain ⟨hmake, hne⟩ := controlIndex_make m c (not_not.1 hrel)
    rw [if_neg hne]
    cases hi : usKeymap.controlIndex 8 c with
    | none =>
      rw [hi] at hmake
      rw [if_neg fun h => Option.some_ne_none _ (hmake.2 h).symm]
      exact congrArg (·.controls.getLsbD m.bit) (enqueue_currLayout d _)
    | some i =>
      rw [hi, Option.some_inj] at hmake
      dsimp only
      by_cases hown : i = m.bit
      · subst hown
        rw [if_pos (hmake.1 rfl)]
        by_cases hset : d.currLayout.controls &&& BitVec.twoPow 8 m.bit ≠ 0
        · rw [if_pos hset, held_clear, if_pos rfl, (and_twoPow_ne_zero d m).1 hset]
          rfl
        · have hheld : m.held d = false :=
            Bool.eq_false_iff.2 (mt (and_twoPow_ne_zero d m).2 hset)
          rw [if_neg hset, held_set, if_pos rfl, hheld]
          rfl
      · rw [if_neg (mt hmake.2 hown)]
        split
        · rw [held_clear, if_neg hown]
        · rw [held_set, if_neg hown]

/-! ## Any sequence of scancodes -/

theorem deliver_append (d : KboardDevice) (pre : List Byte) (c : Byte) :
    deliver d (pre ++ [c]) = keyboardHandler (deliver d pre) c := by
  rw [deliver, List.foldl_append]; rfl

theorem deliver_controlMap (d : KboardDevice) (codes : List Byte) :
    (deliver d codes).currLayout.controlMap = d.currLayout.controlMap := by
  induction codes using List.reverseRecOn with
  | nil => rfl
  | append_singleton pre c ih => rw [deliver_append, keyboardHandler_controlMap, ih]

theorem Modifier.lastCode_append (m : Modifier) (pre : List Byte) (c : Byte) :
    m.lastCode (pre ++ [c]) =
      if c = m.makeCode ∨ c = m.breakCode then some c else m.lastCode pre := by
  rw [Modifier.lastCode, List.reverse_append, List.reverse_singleton, List.singleton_append,
    List.find?_cons, Modifier.lastCode]
  by_cases hm : c = m.makeCode
  · simp [hm]
  · by_cases hb : c = m.breakCode
    · simp [hb]
    · rw [if_neg (not_or.2 ⟨hm, hb⟩), beq_false_of_ne hm, beq_false_of_ne hb]
      rfl

/-- As long as the bits are right and no make code is repeated, they stay right. -/
theorem held_append (hd : d.currLayout.controlMap = usKeymap.controlMap)
    (ih : m.held (deliver d pre) = true ↔ m.lastCode pre = some m.makeCode)
    (hrep : c = m.makeCode → m.lastCode pre ≠ some m.makeCode) :
    m.held (deliver d (pre ++ [c])) = true ↔ m.lastCode (pre ++ [c]) = some m.makeCode := by
  have hmap := (deliver_controlMap d pre).trans hd
  rw [deliver_append, keyboardHandler_held hmap, m.lastCode_append]
  by_cases hb : c = m.breakCode
  · rw [if_pos hb, if_pos (.inr hb), hb, Option.some_inj]
    exact iff_of_false Bool.false_ne_true (m.makeCode_ne_breakCode.symm)
  · by_cases hm : c = m.makeCode
    · have hup : m.held (deliver d pre) = false :=
        Bool.eq_false_iff.2 fun h => hrep hm (ih.1 h)
      rw [if_neg hb, if_pos hm, if_pos (.inl hm), hm, hup]
      exact iff_of_true rfl rfl
    · rw [if_neg hb, if_neg hm, if_neg (not_or.2 ⟨hm, hb⟩)]
      exact ih

/-- A repeated make code leaves the bit wrong. -/
theorem not_held_repeated (hd : d.currLayout.controlMap = usKeymap.controlMap)
    (ih : m.held (deliver d pre) = true ↔ m.lastCode pre = some m.makeCode)
    (hrep : m.lastCode pre = some m.makeCode) :
    m.held (deliver d (pre ++ [m.makeCode])) = false ∧
      m.lastCode (pre ++ [m.makeCode]) = some m.makeCode := by
  have hmap := (deliver_controlMap d pre).trans hd
  rw [deliver_append, keyboardHandler_held hmap, if_neg m.makeCode_ne_breakCode, if_pos rfl,
    ih.2 hrep, m.lastCode_append, if_pos (.inl rfl)]
  exact ⟨rfl, rfl⟩

/-- The bits are clear after `kb_init`. -/
theorem not_held_init (d : KboardDevice) (m : Modifier) : m.held (kbInit d) = false :=
  BitVec.getLsbD_zero

/-- **The bits say which keys are held down exactly as long as no make code is repeated.** -/
theorem held_iff_not_repeated (d : KboardDevice) (codes : List Byte) :
    Tracks (kbInit d) codes ↔ NotRepeated codes := by
  constructor
  · intro h m pre hpre hlast
    have ih := h pre ((List.prefix_append _ _).trans hpre) m
    obtain ⟨hup, hdown⟩ := not_held_repeated rfl ih hlast
    exact Bool.false_ne_true (hup.symm.trans ((h _ hpre m).2 hdown))
  · intro h pre hpre m
    induction pre using List.reverseRecOn with
    | nil => exact iff_of_false (Bool.eq_false_iff.1 (not_held_init d m)) nofun
    | append_singleton pre c ih =>
      refine held_append rfl (ih ((List.prefix_append _ _).trans hpre)) ?_
      rintro rfl
      exact h m pre hpre

/-- Ctrl goes down and its make code comes twice. -/
theorem not_tracks_repeated_ctrl :
    ¬ ∀ (d : KboardDevice) (codes : List Byte), Tracks (kbInit d) codes := by
  intro h
  have hrep := h (bss usKeymap) [29, 29] [29, 29] (List.prefix_refl _) .ctrl
  revert hrep
  decide +kernel

/-! ## With a reader -/

/-- The scancodes of a run, the oldest first. -/
def scancodes : List Ev → List Byte
  | [] => []
  | .key _ scancode :: es => scancodes es ++ [scancode]
  | _ :: es => scancodes es

/-- **Reading does not touch the controls**: after any run the layout is what the scancodes made of
it. -/
theorem Run.currLayout_eq {es : List Ev} {s : Sys} (h : Run es s) :
    ∀ d, s.dev.currLayout = (deliver (kbInit d) (scancodes es)).currLayout := by
  intro d
  induction h with
  | init layout => rfl
  | step _ hs ih =>
    cases hs with
    | key scancode =>
      rw [scancodes, deliver_append]
      exact keyboardHandler_currLayout_congr ih scancode
    | test => exact ih
    | read => exact ih
    | advance => exact ih

end Hurlex.Kboard
