import Mathlib.Data.BitVec
import Mathlib.Tactic.IntervalCases
import Hurlex.Lib.Trap

/-!
# The global descriptor table (`arch/i386/mm/gdt.c`, `gdt.h`)

A segment descriptor is eight bytes in which the processor finds the base in three pieces and the
limit in two; the upper piece of the limit shares its byte with four flags. `gdt_set_gate` fills in a
`gdt_entry_t`, and what the processor sees of it is the 64-bit word the packed structure is in memory.

The limit of a segment is the offset of its last byte. `gdt_init` takes one off for `gdt_ptr.limit`, as
its comment says. `tss_set_gate` hands over the address behind the task state segment instead, and
`gdt_set_gate` cuts it to 20 bits.

* **`decode_gdtGate`**: an entry reads back as what it was made from, with the low 20 bits of the limit.
* **`segments_gdtInit`**: the selectors the processor finds a segment behind.
* **`coversTss_iff`**: the limit of the task state segment is the offset of its last byte at one address
  in every megabyte, the last one. `tss_entry` is aligned to 8 bytes, so it is never there.

Out of scope: loading the two registers, and the fields of `tss_entry` that nothing writes.
-/

namespace Hurlex.Gdt

/-- `gdt_entry_t`. -/
structure GdtEntry where
  limitLow : BitVec 16
  baseLow : BitVec 16
  baseMiddle : BitVec 8
  access : BitVec 8
  granularity : BitVec 8
  baseHigh : BitVec 8
  deriving DecidableEq

/-- What `gdt_set_gate` stores. -/
def gdtGate (base limit : BitVec 32) (access gran : BitVec 8) : GdtEntry :=
  { baseLow := (base &&& 0xFFFF).setWidth 16
    baseMiddle := ((base >>> 16) &&& 0xFF).setWidth 8
    baseHigh := ((base >>> 24) &&& 0xFF).setWidth 8
    limitLow := (limit &&& 0xFFFF).setWidth 16
    granularity := ((limit >>> 16) &&& 0x0F).setWidth 8 ||| (gran &&& 0xF0)
    access := access }

/-- The fields of `tss_entry` that are written. -/
structure TssEntry where
  tsEsp0 : BitVec 32
  tsSs0 : BitVec 16
  tsEs : BitVec 16
  tsCs : BitVec 16
  tsSs : BitVec 16
  tsDs : BitVec 16
  tsFs : BitVec 16
  tsGs : BitVec 16
  deriving DecidableEq

/-- The sizes of the fields of `tss_entry_t`, which is packed: from `ts_link` to `ts_ss2` with the
paddings, from `ts_cr3` to `ts_edi`, from `ts_es` to `ts_ldt` with the paddings, and the last two. -/
def tssFieldSizes : List Nat :=
  [4, 4, 2, 2, 4, 2, 2, 4, 2, 2] ++ List.replicate 11 4 ++ List.replicate 14 2 ++ [2, 2]

/-- `sizeof(tss_entry)`. -/
def sizeofTss : Nat := tssFieldSizes.foldl (· + ·) 0

/-- `gdt_entries` and `tss_entry`. -/
structure Tables where
  entries : Nat → GdtEntry
  tssEntry : TssEntry

/-- `SEG_TSS`; the other segments are the entries in front of it. -/
def segTss : Nat := 5

/-- `KERNEL_CS`. -/
def kernelCs : BitVec 16 := 1 <<< 3

/-- `KERNEL_DS`. -/
def kernelDs : BitVec 16 := 2 <<< 3

/-- `USER_CS`. -/
def userCs : BitVec 16 := 3 <<< 3 ||| 3

/-- `USER_DS`. -/
def userDs : BitVec 16 := 4 <<< 3 ||| 3

def gdtSetGate (g : Tables) (num : Nat) (base limit : BitVec 32) (access gran : BitVec 8) : Tables :=
  { g with entries := fun i => if i = num then gdtGate base limit access gran else g.entries i }

/-- `tss_set_gate`, with `tss_entry` at `addr`. -/
def tssSetGate (addr : BitVec 32) (g : Tables) (num : Nat) (ss0 : BitVec 16) (esp0 : BitVec 32) :
    Tables :=
  let base := addr
  let limit := base + BitVec.ofNat 32 sizeofTss
  { gdtSetGate g num base limit 0x89 0x40 with
    tssEntry :=
      { tsSs0 := ss0, tsEsp0 := esp0, tsCs := userCs, tsSs := userDs, tsDs := userDs,
        tsEs := userDs, tsFs := userDs, tsGs := userDs } }

/-- `gdt_ptr_t`. -/
structure GdtPtr where
  limit : BitVec 16
  base : BitVec 32

/-- `gdt_init`, up to the loading of the registers, with `gdt_entries` at `table` and `tss_entry` at
`addr`. -/
def gdtInit (table addr : BitVec 32) (g : Tables) : GdtPtr × Tables :=
  let gdtPtr : GdtPtr := ⟨8 * 6 - 1, table⟩
  let g := gdtSetGate g 0 0 0 0 0
  let g := gdtSetGate g 1 0 0xFFFFFFFF 0x9A 0xC0
  let g := gdtSetGate g 2 0 0xFFFFFFFF 0x92 0xC0
  let g := gdtSetGate g 3 0 0xFFFFFFFF 0xFA 0xC0
  let g := gdtSetGate g 4 0 0xFFFFFFFF 0xF2 0xC0
  (gdtPtr, tssSetGate addr g segTss kernelDs 0)

/-! ## What the processor makes of an entry -/

/-- The eight bytes of an entry, the first one lowest. -/
def GdtEntry.word (e : GdtEntry) : BitVec 64 :=
  e.baseHigh ++ e.granularity ++ e.access ++ e.baseMiddle ++ e.baseLow ++ e.limitLow

/-- A descriptor by the layout of the i386. -/
structure Descriptor where
  base : BitVec 32
  limit : BitVec 20
  access : BitVec 8
  flags : BitVec 4
  deriving DecidableEq

def decode (w : BitVec 64) : Descriptor :=
  { base := w.extractLsb' 56 8 ++ w.extractLsb' 16 24
    limit := w.extractLsb' 48 4 ++ w.extractLsb' 0 16
    access := w.extractLsb' 40 8
    flags := w.extractLsb' 52 4 }

def Tables.descriptor (g : Tables) (num : Nat) : Descriptor := decode (g.entries num).word

theorem decode_word (e : GdtEntry) : decode e.word =
    { base := e.baseHigh ++ (e.baseMiddle ++ e.baseLow)
      limit := e.granularity.extractLsb' 0 4 ++ e.limitLow
      access := e.access
      flags := e.granularity.extractLsb' 4 4 } := by
  unfold decode GdtEntry.word
  rw [Descriptor.mk.injEq]
  refine ⟨?_, ?_, ?_, ?_⟩
  · ext i hi
    simp
    grind
  · ext i hi
    simp
    grind
  · ext i hi
    simp
    grind
  · ext i hi
    simp
    grind

/-- A mask of `w` bits is lost in a field of `w` bits. -/
theorem setWidth_and_allOnes {w : Nat} (hw : w ≤ 32) (x : BitVec 32) :
    (x &&& (BitVec.allOnes w).setWidth 32).setWidth w = x.setWidth w := by
  ext i hi
  simp
  grind

theorem mask_low : ∀ i < 4, (0x0F#8).getLsbD i = true ∧ (0xF0#8).getLsbD i = false := by
  decide

theorem mask_high : ∀ i < 4, (0x0F#8).getLsbD (4 + i) = false ∧ (0xF0#8).getLsbD (4 + i) = true := by
  decide

/-- The byte the limit and the flags share, its lower half. -/
theorem granularity_low (limit : BitVec 32) (gran : BitVec 8) :
    (((limit >>> 16) &&& 0x0F).setWidth 8 ||| (gran &&& 0xF0)).extractLsb' 0 4 =
      limit.extractLsb' 16 4 := by
  apply BitVec.eq_of_getLsbD_eq
  intro i hi
  have hlt : i < 8 := by omega
  simp [mask_low i hi, hi, hlt, -BitVec.getLsbD_eq_getElem]

theorem granularity_high (limit : BitVec 32) (gran : BitVec 8) :
    (((limit >>> 16) &&& 0x0F).setWidth 8 ||| (gran &&& 0xF0)).extractLsb' 4 4 =
      gran.extractLsb' 4 4 := by
  apply BitVec.eq_of_getLsbD_eq
  intro i hi
  simp [mask_high i hi, hi]

theorem base_pieces (base : BitVec 32) :
    (base >>> 24).setWidth 8 ++ ((base >>> 16).setWidth 8 ++ base.setWidth 16) = base := by
  ext i hi
  simp
  grind

theorem limit_pieces (limit : BitVec 32) :
    limit.extractLsb' 16 4 ++ limit.setWidth 16 = limit.setWidth 20 := by
  ext i hi
  simp
  grind

/-- **An entry reads back as what it was made from.** -/
theorem decode_gdtGate (base limit : BitVec 32) (access gran : BitVec 8) :
    decode (gdtGate base limit access gran).word =
      ⟨base, limit.setWidth 20, access, gran.extractLsb' 4 4⟩ := by
  have hbaseHigh : ((base >>> 24) &&& 0xFF).setWidth 8 = (base >>> 24).setWidth 8 :=
    setWidth_and_allOnes (by decide) _
  have hbaseMiddle : ((base >>> 16) &&& 0xFF).setWidth 8 = (base >>> 16).setWidth 8 :=
    setWidth_and_allOnes (by decide) _
  have hlow (x : BitVec 32) : (x &&& 0xFFFF).setWidth 16 = x.setWidth 16 :=
    setWidth_and_allOnes (by decide) x
  rw [decode_word, Descriptor.mk.injEq]
  dsimp only [gdtGate]
  rw [hbaseHigh, hbaseMiddle, hlow, hlow, granularity_low, granularity_high, base_pieces,
    limit_pieces]
  exact ⟨rfl, rfl, rfl, rfl⟩

theorem descriptor_gdtSetGate (g : Tables) (num : Nat) (base limit : BitVec 32)
    (access gran : BitVec 8) :
    (gdtSetGate g num base limit access gran).descriptor num =
      ⟨base, limit.setWidth 20, access, gran.extractLsb' 4 4⟩ := by
  unfold Tables.descriptor gdtSetGate
  dsimp only
  rw [if_pos rfl, decode_gdtGate]

theorem descriptor_gdtSetGate_ne (g : Tables) {num i : Nat} (h : i ≠ num) (base limit : BitVec 32)
    (access gran : BitVec 8) :
    (gdtSetGate g num base limit access gran).descriptor i = g.descriptor i := by
  unfold Tables.descriptor gdtSetGate
  dsimp only
  rw [if_neg h]

theorem descriptor_tssSetGate (addr : BitVec 32) (g : Tables) (num : Nat) (ss0 : BitVec 16)
    (esp0 : BitVec 32) :
    (tssSetGate addr g num ss0 esp0).descriptor num =
      ⟨addr, (addr + BitVec.ofNat 32 sizeofTss).setWidth 20, 0x89, 4⟩ :=
  descriptor_gdtSetGate g num addr (addr + BitVec.ofNat 32 sizeofTss) 0x89 0x40

theorem descriptor_tssSetGate_ne (addr : BitVec 32) (g : Tables) {num i : Nat} (h : i ≠ num)
    (ss0 : BitVec 16) (esp0 : BitVec 32) :
    (tssSetGate addr g num ss0 esp0).descriptor i = g.descriptor i :=
  descriptor_gdtSetGate_ne g h addr (addr + BitVec.ofNat 32 sizeofTss) 0x89 0x40

/-- The descriptor covers the task state segment at `addr`, up to its last byte. -/
def CoversTss (addr : BitVec 32) (d : Descriptor) : Prop :=
  d.base = addr ∧ d.limit.toNat = sizeofTss - 1

instance (addr : BitVec 32) (d : Descriptor) : Decidable (CoversTss addr d) :=
  inferInstanceAs (Decidable (_ ∧ _))

/-- **Where the task state segment would have to lie** to be covered exactly. -/
theorem coversTss_iff (addr : BitVec 32) (g : Tables) (num : Nat) (ss0 : BitVec 16)
    (esp0 : BitVec 32) :
    CoversTss addr ((tssSetGate addr g num ss0 esp0).descriptor num) ↔
      addr.toNat % 2 ^ 20 = 2 ^ 20 - 1 := by
  have hsize : sizeofTss = 104 := rfl
  rw [descriptor_tssSetGate, CoversTss]
  dsimp only
  rw [and_iff_right rfl, hsize, BitVec.toNat_setWidth, BitVec.toNat_add, BitVec.toNat_ofNat]
  omega

theorem not_coversTss {addr : BitVec 32} (hal : 8 ∣ addr.toNat) (g : Tables) (num : Nat)
    (ss0 : BitVec 16) (esp0 : BitVec 32) :
    ¬ CoversTss addr ((tssSetGate addr g num ss0 esp0).descriptor num) := by
  rw [coversTss_iff]
  omega

/-- **Entries decode to what was asked for, the task state segment's to what it covers at one address
in a megabyte only.** -/
theorem gates_decode (g : Tables) (num : Nat) (base addr esp0 : BitVec 32) (limit : BitVec 20)
    (access gran : BitVec 8) (ss0 : BitVec 16) :
    (gdtSetGate g num base (limit.setWidth 32) access gran).descriptor num =
        ⟨base, limit, access, gran.extractLsb' 4 4⟩ ∧
      (CoversTss addr ((tssSetGate addr g num ss0 esp0).descriptor num) ↔
        addr.toNat % 2 ^ 20 = 2 ^ 20 - 1) ∧
      (8 ∣ addr.toNat → ¬ CoversTss addr ((tssSetGate addr g num ss0 esp0).descriptor num)) := by
  have hlimit : (limit.setWidth 32).setWidth 20 = limit := by
    rw [BitVec.setWidth_setWidth_of_le limit (by decide), BitVec.setWidth_eq]
  refine ⟨?_, coversTss_iff addr g num ss0 esp0, fun hal => not_coversTss hal g num ss0 esp0⟩
  rw [descriptor_gdtSetGate, hlimit]

/-- `gdt_init` leaves four segments of 4 GB, and the task state segment. -/
theorem gdtInit_descriptors (table addr : BitVec 32) (g : Tables) :
    (gdtInit table addr g).2.descriptor 1 = ⟨0, BitVec.allOnes 20, 0x9A, 0xC⟩ ∧
      (gdtInit table addr g).2.descriptor 2 = ⟨0, BitVec.allOnes 20, 0x92, 0xC⟩ ∧
      (gdtInit table addr g).2.descriptor 3 = ⟨0, BitVec.allOnes 20, 0xFA, 0xC⟩ ∧
      (gdtInit table addr g).2.descriptor 4 = ⟨0, BitVec.allOnes 20, 0xF2, 0xC⟩ ∧
      (gdtInit table addr g).2.descriptor segTss =
        ⟨addr, (addr + BitVec.ofNat 32 sizeofTss).setWidth 20, 0x89, 4⟩ := by
  unfold gdtInit
  dsimp only
  refine ⟨?_, ?_, ?_, ?_, descriptor_tssSetGate addr _ segTss kernelDs 0⟩
  · rw [descriptor_tssSetGate_ne _ _ (by decide), descriptor_gdtSetGate_ne _ (by decide),
      descriptor_gdtSetGate_ne _ (by decide), descriptor_gdtSetGate_ne _ (by decide),
      descriptor_gdtSetGate]
    rfl
  · rw [descriptor_tssSetGate_ne _ _ (by decide), descriptor_gdtSetGate_ne _ (by decide),
      descriptor_gdtSetGate_ne _ (by decide), descriptor_gdtSetGate]
    rfl
  · rw [descriptor_tssSetGate_ne _ _ (by decide), descriptor_gdtSetGate_ne _ (by decide),
      descriptor_gdtSetGate]
    rfl
  · rw [descriptor_tssSetGate_ne _ _ (by decide), descriptor_gdtSetGate]
    rfl

/-! ## Behind the selectors -/

/-- The segment of an access byte: present, for code or data, and within what `Segments` keeps. -/
def accessSegment (access : BitVec 8) : Option Lib.Machine.Segment :=
  let code := access.getLsbD 3
  if access.getLsbD 7 && access.getLsbD 4 && access.getLsbD 1 && !(code && access.getLsbD 2) then
    some ⟨(access.extractLsb' 5 2).toNat, code⟩
  else none

/-- What the processor finds with `p` in its register, and no local table. -/
def segments (p : GdtPtr) (g : Tables) : Lib.Machine.Segments := fun v =>
  let num := v.toNat / 8
  if v.getLsbD 2 || num == 0 || p.limit.toNat < 8 * num + 7 then none
  else accessSegment (g.descriptor num).access

/-- The four segments of the kernel, by the number of the selector without its level. -/
def kernelSegments : Lib.Machine.Segments := fun v =>
  match v.toNat / 4 with
  | 2 => some ⟨0, true⟩
  | 4 => some ⟨0, false⟩
  | 6 => some ⟨3, true⟩
  | 8 => some ⟨3, false⟩
  | _ => none

theorem segments_of_access {p : GdtPtr} {g : Tables} (hlimit : p.limit = 47)
    (h1 : (g.descriptor 1).access = 0x9A) (h2 : (g.descriptor 2).access = 0x92)
    (h3 : (g.descriptor 3).access = 0xFA) (h4 : (g.descriptor 4).access = 0xF2)
    (h5 : (g.descriptor segTss).access = 0x89) : segments p g = kernelSegments := by
  have e1 : accessSegment (g.descriptor 1).access = some ⟨0, true⟩ := by rw [h1]; decide
  have e2 : accessSegment (g.descriptor 2).access = some ⟨0, false⟩ := by rw [h2]; decide
  have e3 : accessSegment (g.descriptor 3).access = some ⟨3, true⟩ := by rw [h3]; decide
  have e4 : accessSegment (g.descriptor 4).access = some ⟨3, false⟩ := by rw [h4]; decide
  have e5 : accessSegment (g.descriptor segTss).access = none := by rw [h5]; decide
  funext v
  have hti : v.getLsbD 2 = decide (v.toNat / 4 % 2 = 1) := by
    rw [BitVec.getLsbD, Nat.testBit_eq_decide_div_mod_eq]
  have hdiv : v.toNat / 8 = v.toNat / 4 / 2 := by rw [Nat.div_div_eq_div_mul]
  unfold segments kernelSegments
  rw [hti, hlimit, hdiv, show (47 : BitVec 16).toNat = 47 from rfl]
  dsimp only
  generalize v.toNat / 4 = n
  by_cases hn : n < 12
  · interval_cases n
    · rfl
    · rfl
    · exact e1
    · rfl
    · exact e2
    · rfl
    · exact e3
    · rfl
    · exact e4
    · rfl
    · exact e5
    · rfl
  · have hout : (decide (n % 2 = 1) || n / 2 == 0 || decide (47 < 8 * (n / 2) + 7)) = true := by
      rw [Bool.or_eq_true, decide_eq_true (show 47 < 8 * (n / 2) + 7 by omega)]
      exact .inr rfl
    obtain ⟨k, rfl⟩ := Nat.exists_eq_add_of_le' (Nat.not_lt.1 hn)
    rw [if_pos hout]
    rfl

/-- **After `gdt_init`** there are these four; the task state segment is none for data or code. -/
theorem segments_gdtInit (table addr : BitVec 32) (g : Tables) :
    segments (gdtInit table addr g).1 (gdtInit table addr g).2 = kernelSegments := by
  obtain ⟨h1, h2, h3, h4, h5⟩ := gdtInit_descriptors table addr g
  refine segments_of_access rfl ?_ ?_ ?_ ?_ ?_
  · rw [h1]
  · rw [h2]
  · rw [h3]
  · rw [h4]
  · rw [h5]

/-- The kernel's stack is in the only data segment of level 0. -/
theorem loads_ss_iff (v : BitVec 16) : kernelSegments.loads 0 .ss v = true ↔ v = kernelDs := by
  constructor
  · intro h
    unfold Lib.Machine.Segments.loads at h
    dsimp only at h
    unfold kernelSegments at h
    split at h
    · simp at h
    · next hn =>
      have hrpl : Lib.Machine.isNull v = false ∧ Lib.Machine.rpl v = 0 := by simpa using h
      rw [← BitVec.toNat_inj, show kernelDs.toNat = 16 from rfl]
      have hlow : v.toNat % 4 = 0 := hrpl.2
      omega
    · simp at h
    · simp at h
    · simp at h
  · rintro rfl
    decide

/-- Its code is in the only code segment of level 0. -/
theorem eq_of_returns {cs ss : BitVec 16} (h : kernelSegments.returns 0 cs ss = true)
    (h0 : Lib.Machine.rpl cs = 0) : cs = kernelCs := by
  unfold Lib.Machine.Segments.returns at h
  rw [Bool.and_eq_true, Bool.and_eq_true] at h
  obtain ⟨⟨-, h⟩, -⟩ := h
  rw [h0] at h
  unfold kernelSegments at h
  have hlow : cs.toNat % 4 = 0 := h0
  split at h
  · next hn =>
    rw [← BitVec.toNat_inj, show kernelCs.toNat = 8 from rfl]
    omega
  · simp at h
  · simp at h
  · simp at h
  · simp at h

/-- A kernel with `tss_entry` at `0xC0110000` has a task state segment of 64 KB and more. -/
theorem not_gates_decode : ¬ ((∀ (g : Tables) (num : Nat) (base : BitVec 32) (limit : BitVec 20)
      (access gran : BitVec 8),
      (gdtSetGate g num base (limit.setWidth 32) access gran).descriptor num =
        ⟨base, limit, access, gran.extractLsb' 4 4⟩) ∧
    ∀ (g : Tables) (num : Nat) (addr : BitVec 32) (ss0 : BitVec 16) (esp0 : BitVec 32),
      8 ∣ addr.toNat → CoversTss addr ((tssSetGate addr g num ss0 esp0).descriptor num)) := by
  rintro ⟨-, h⟩
  have g : Tables := ⟨fun _ => gdtGate 0 0 0 0, ⟨0, 0, 0, 0, 0, 0, 0, 0⟩⟩
  exact not_coversTss (by decide) g segTss kernelDs 0
    (h g segTss 0xC0110000 kernelDs 0 (by decide))

end Hurlex.Gdt
