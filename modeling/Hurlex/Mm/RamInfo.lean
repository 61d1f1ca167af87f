import Hurlex.Lib.Segment
import Hurlex.String

/-!
# Reading the memory map of the boot loader

`get_ram_info` of `arch/i386/mm/pmm.c` walks over the buffer at `mmap_addr` and collects the RAM entry
the kernel lies in. An entry is as long as its `size` field says, plus that field (`mboot.h`).

The walk does not follow this. It steps by `sizeof(mmap_entry_t)`, whatever `size` is, and its end
pointer is `mmap_length` entries behind the start where `mmap_length` counts bytes. Nor does it look
how many entries `e820map_t` has room for. The model returns the addresses the walk has looked at, too.

**`getRamInfo_exact_iff`** is what remains: a walk that has not come round the end of the address space
is exact for the empty buffer only.
-/

namespace Hurlex

open Lib

/-- The `uint32_t` at `a`, the low byte first. -/
def readWord (mem : ByteMem) (a : Nat) : Nat :=
  (mem a).toNat + 2 ^ 8 * (mem (u32 (a + 1))).toNat + 2 ^ 16 * (mem (u32 (a + 2))).toNat +
    2 ^ 24 * (mem (u32 (a + 3))).toNat

/-- `sizeof(mmap_entry_t)`. -/
def sizeofMmapEntry : Nat := 24

/-- `MULTIBOOT_TYPE_RAM`. -/
def multibootTypeRam : Nat := 1

/-- `E820MAX`. -/
def e820Max : Nat := 20

/-- `E820_ARM`. -/
def e820Arm : Nat := 1

/-- An entry of `e820map_t`'s `map`. -/
structure E820MapEntry where
  addrLow : Nat
  addrHigh : Nat
  lengthLow : Nat
  lengthHigh : Nat
  type : Nat
  deriving DecidableEq

/-- `e820map_t`. From the index `E820MAX` on, `map` is the memory behind it. -/
structure E820Map where
  count : Nat
  map : Nat → E820MapEntry

/-- The map as `pmm_init` clears it. -/
def E820Map.zero : E820Map := ⟨0, fun _ => ⟨0, 0, 0, 0, 0⟩⟩

/-- `map_entry->type == MULTIBOOT_TYPE_RAM && map_entry->base_addr_low == RAM_KERNEL_START`. -/
def isKernelRam (mem : ByteMem) (mapEntry : Nat) : Bool :=
  decide (readWord mem (u32 (mapEntry + 20)) = multibootTypeRam) &&
    decide (readWord mem (u32 (mapEntry + 4)) = ramKernelStart)

/-- What is copied of an entry. -/
def entryAt (mem : ByteMem) (mapEntry : Nat) : E820MapEntry where
  addrLow := readWord mem (u32 (mapEntry + 4))
  addrHigh := readWord mem (u32 (mapEntry + 8))
  lengthLow := readWord mem (u32 (mapEntry + 12))
  lengthHigh := readWord mem (u32 (mapEntry + 16))
  type := e820Arm

/-- The body of `get_ram_info`'s loop. -/
def recordEntry (mem : ByteMem) (mapEntry : Nat) (e820map : E820Map) : E820Map :=
  if isKernelRam mem mapEntry then
    { map := Function.update e820map.map e820map.count (entryAt mem mapEntry)
      count := u32 (e820map.count + 1) }
  else e820map

/-- The loop of `get_ram_info` from `mapEntry` on: the map, and the addresses of the entries it has
looked at. -/
def scanEntries (mem : ByteMem) (mmapEndAddr : Nat) :
    Nat → Nat → E820Map → Kern (E820Map × List Nat)
  | 0, _, _ => .error .noReturn
  | fuel + 1, mapEntry, e820map =>
    if mapEntry < mmapEndAddr then do
      let r ← scanEntries mem mmapEndAddr fuel (u32 (mapEntry + sizeofMmapEntry))
        (recordEntry mem mapEntry e820map)
      return (r.1, mapEntry :: r.2)
    else .ok (e820map, [])

/-- `mmap_end_addr`, by pointer arithmetic on `mmap_entry_t *`. -/
def mmapEnd (mmapAddr mmapLength : Nat) : Nat := u32 (mmapAddr + sizeofMmapEntry * mmapLength)

/-- `get_ram_info`. A walk that has not come to its end in as many steps as there are addresses never
does. -/
def getRamInfo (mem : ByteMem) (mmapAddr mmapLength : Nat) (e820map : E820Map) :
    Kern (E820Map × List Nat) :=
  scanEntries mem (mmapEnd mmapAddr mmapLength) addrSpace mmapAddr e820map

/-! ## What it should do -/

/-- The entry at `a`, with its `size` field. -/
def entrySeg (mem : ByteMem) (a : Nat) : Seg := (a, readWord mem a + 4)

/-- `es` are the entries of a buffer, which lies in the address space. -/
structure Buffer (mem : ByteMem) (addr length : Nat) (es : List Nat) : Prop where
  tiles : Tiles addr (addr + length) (es.map (entrySeg mem))
  size : ∀ a ∈ es, 20 ≤ readWord mem a
  inside : addr + length ≤ addrSpace
  start : addr < addrSpace

/-- `get_ram_info` reads the map exactly: it looks at entries of the buffer only, and records those
of the kernel's RAM, in order, without leaving the array. -/
structure ExactMap (mem : ByteMem) (es : List Nat) (r : E820Map × List Nat) : Prop where
  looked : ∀ a ∈ r.2, a ∈ es
  recorded : (List.range r.1.count).map r.1.map = (es.filter (isKernelRam mem)).map (entryAt mem)
  room : r.1.count ≤ e820Max
  kept : ∀ i, e820Max ≤ i → r.1.map i = E820Map.zero.map i

def ReadsExactly (mem : ByteMem) (addr length : Nat) (es : List Nat) : Prop :=
  ∃ r, getRamInfo mem addr length .zero = .ok r ∧ ExactMap mem es r

variable {mem : ByteMem} {addr length a fin fuel c k : Nat} {es : List Nat} {m : E820Map}

/-! ## The entries of a buffer -/

/-- Entries are at least `sizeof(mmap_entry_t)` apart. -/
theorem Buffer.apart (h : Buffer mem addr length es) : es.Pairwise fun a b => a + 24 ≤ b := by
  have hp := List.pairwise_map.mp h.tiles.pairwise
  refine hp.imp_of_mem fun {a b} ha _ hab => ?_
  have := h.size a ha
  simp only [entrySeg] at hab
  omega

theorem Buffer.bounds (h : Buffer mem addr length es) (ha : a ∈ es) :
    addr ≤ a ∧ a + 24 ≤ addr + length := by
  have hb := h.tiles.bounds (List.mem_map_of_mem ha)
  have hs := h.size a ha
  simp only [entrySeg] at hb
  omega

/-- Two entries less than 24 bytes apart are the same. -/
theorem Buffer.eq_of_near (h : Buffer mem addr length es) {b : Nat} (ha : a ∈ es) (hb : b ∈ es)
    (h₁ : a ≤ b) (h₂ : b < a + 24) : a = b := by
  by_contra hne
  have hsymm : es.Pairwise fun a b => a + 24 ≤ b ∨ b + 24 ≤ a := h.apart.imp Or.inl
  have : Std.Symm fun a b : Nat => a + 24 ≤ b ∨ b + 24 ≤ a := ⟨fun _ _ => Or.symm⟩
  have := hsymm.forall ha hb hne
  omega

/-- **If the steps meet entries only, they meet all entries up to where they end.** -/
theorem Buffer.filter_steps (h : Buffer mem addr length es)
    (hsteps : ∀ k < c, addr + 24 * k ∈ es) :
    es.filter (fun a => decide (a < addr + 24 * c)) = List.range' addr c 24 := by
  have hlt : es.Pairwise (· < ·) := h.apart.imp fun hab => by omega
  have hleft : (es.filter fun a => decide (a < addr + 24 * c)).Pairwise (· < ·) :=
    hlt.sublist List.filter_sublist
  have hright : (List.range' addr c 24).Pairwise (· < ·) :=
    List.pairwise_lt_range' 24 (by decide)
  refine List.Perm.eq_of_pairwise (fun a b _ _ hab hba => ?_) hleft hright ?_
  · exact absurd hba (Nat.lt_asymm hab)
  · refine (List.perm_ext_iff_of_nodup (hleft.imp fun hab => Nat.ne_of_lt hab)
      (hright.imp fun hab => Nat.ne_of_lt hab)).mpr fun a => ?_
    rw [List.mem_filter, decide_eq_true_iff, List.mem_range']
    constructor
    · rintro ⟨ha, hac⟩
      have hb := h.bounds ha
      have hk := hsteps ((a - addr) / 24) (by omega)
      exact ⟨(a - addr) / 24, by omega, (h.eq_of_near hk ha (by omega) (by omega)).symm⟩
    · rintro ⟨k, hk, rfl⟩
      exact ⟨hsteps k hk, by omega⟩

/-! ## The walk -/

/-- The walk goes as far as the end pointer says. -/
theorem scanEntries_steps : ∀ {c a fuel : Nat} {m : E820Map}, (∀ k < c, a + 24 * k < fin) →
    fin ≤ a + 24 * c → a + 24 * c < addrSpace → c < fuel →
    scanEntries mem fin fuel a m =
      .ok ((List.range' a c 24).foldl (fun m a => recordEntry mem a m) m, List.range' a c 24)
  | 0, a, fuel + 1, m, _, hend, _, _ => by
    rw [scanEntries, if_neg (by omega)]
    rfl
  | c + 1, a, fuel + 1, m, hlt, hend, hspace, hfuel => by
    have hspace' : a + 24 < 2 ^ 32 := by
      have : addrSpace = 2 ^ 32 := rfl
      omega
    have ih : scanEntries mem fin fuel (a + 24) (recordEntry mem a m) =
        .ok ((List.range' (a + 24) c 24).foldl (fun m a => recordEntry mem a m)
          (recordEntry mem a m), List.range' (a + 24) c 24) := by
      refine scanEntries_steps (fun k hk => ?_) (by omega) (by omega) (by omega)
      have := hlt (k + 1) (by omega)
      omega
    rw [scanEntries, if_pos (show a < fin from hlt 0 (by omega)), sizeofMmapEntry, u32_of_lt hspace', ih]
    rfl

theorem u32_add_u32 (a b : Nat) : u32 (u32 a + b) = u32 (a + b) := Nat.mod_add_mod a (2 ^ 32) b

/-- Whatever a walk comes to, it has looked at every step in front of the end pointer. -/
theorem scanEntries_prefix : ∀ {c a fuel : Nat} {m : E820Map} {r : E820Map × List Nat},
    fin ≤ addrSpace → a < addrSpace → (∀ k < c, a + 24 * k < fin) →
    scanEntries mem fin fuel a m = .ok r →
    ∃ fuel' m' r', scanEntries mem fin fuel' (u32 (a + 24 * c)) m' = .ok r' ∧
      r.2 = List.range' a c 24 ++ r'.2
  | 0, a, fuel, m, r, _, ha, _, h => ⟨fuel, m, r, by rwa [Nat.mul_zero, Nat.add_zero, u32_of_lt ha], rfl⟩
  | c + 1, a, 0, m, r, _, _, _, h => nomatch h
  | c + 1, a, fuel + 1, m, r, hfin, ha, hlt, h => by
    rw [scanEntries, if_pos (show a < fin from hlt 0 (by omega)), Kern.bind_eq_ok] at h
    obtain ⟨q, hq, hr⟩ := h
    cases hr
    have hnext : 0 < c → u32 (a + 24) = a + 24 := by
      intro hc
      have := hlt 1 (by omega)
      exact u32_of_lt (by show a + 24 < addrSpace; omega)
    have hlt' : ∀ k < c, u32 (a + sizeofMmapEntry) + 24 * k < fin := by
      intro k hk
      have := hlt (k + 1) (by omega)
      rw [sizeofMmapEntry, hnext (by omega)]
      omega
    have hin : u32 (a + sizeofMmapEntry) < addrSpace := Nat.mod_lt _ (by decide)
    obtain ⟨fuel', m', r', hr', hlooked⟩ := scanEntries_prefix hfin hin hlt' hq
    refine ⟨fuel', m', r', ?_, ?_⟩
    · rw [u32_add_u32, sizeofMmapEntry] at hr'
      rwa [show a + 24 * (c + 1) = a + 24 + 24 * c by omega]
    · show a :: q.2 = _
      rw [hlooked, List.range'_succ, List.cons_append, sizeofMmapEntry]
      cases c with
      | zero => rfl
      | succ c => rw [hnext (by omega)]

theorem scanEntries_head {r : E820Map × List Nat} (ha : a < fin)
    (h : scanEntries mem fin fuel a m = .ok r) : a ∈ r.2 := by
  cases fuel with
  | zero => exact nomatch h
  | succ fuel =>
    rw [scanEntries, if_pos ha, Kern.bind_eq_ok] at h
    obtain ⟨q, -, hr⟩ := h
    cases hr
    exact List.mem_cons_self

/-! ## The map -/

/-- One entry of the walk. -/
theorem recordEntry_spec (mem : ByteMem) (a : Nat) (m : E820Map) (hm : m.count + 1 < 2 ^ 32) :
    (recordEntry mem a m).count = m.count + ([a].filter (isKernelRam mem)).length ∧
      (List.range (recordEntry mem a m).count).map (recordEntry mem a m).map =
        (List.range m.count).map m.map ++ ([a].filter (isKernelRam mem)).map (entryAt mem) ∧
      ∀ i, (recordEntry mem a m).count ≤ i → (recordEntry mem a m).map i = m.map i := by
  unfold recordEntry
  by_cases hram : isKernelRam mem a = true
  · rw [if_pos hram, List.filter_cons_of_pos hram, List.filter_nil]
    dsimp only
    rw [u32_of_lt hm]
    refine ⟨rfl, ?_, fun i hi => Function.update_of_ne (by omega) ..⟩
    rw [List.range_succ, List.map_append, List.map_singleton, Function.update_self]
    congr 1
    refine List.map_congr_left fun i hi => Function.update_of_ne ?_ ..
    have := List.mem_range.mp hi
    omega
  · rw [if_neg hram, List.filter_cons_of_neg hram, List.filter_nil]
    exact ⟨rfl, (List.append_nil _).symm, fun _ _ => rfl⟩

/-- The whole walk. -/
theorem foldl_recordEntry (mem : ByteMem) : ∀ (l : List Nat) (m : E820Map),
    m.count + l.length < 2 ^ 32 →
    let m' := l.foldl (fun m a => recordEntry mem a m) m
    m'.count = m.count + (l.filter (isKernelRam mem)).length ∧
      (List.range m'.count).map m'.map =
        (List.range m.count).map m.map ++ (l.filter (isKernelRam mem)).map (entryAt mem) ∧
      ∀ i, m'.count ≤ i → m'.map i = m.map i
  | [], m, _ => ⟨rfl, (List.append_nil _).symm, fun _ _ => rfl⟩
  | a :: l, m, hm => by
    have hlen : ([a].filter (isKernelRam mem)).length ≤ 1 := List.length_filter_le _ [a]
    rw [List.length_cons] at hm
    obtain ⟨h₁, h₂, h₃⟩ := recordEntry_spec mem a m (by omega)
    obtain ⟨i₁, i₂, i₃⟩ := foldl_recordEntry mem l (recordEntry mem a m) (by omega)
    have hcons : (a :: l).filter (isKernelRam mem) =
        [a].filter (isKernelRam mem) ++ l.filter (isKernelRam mem) := by
      rw [← List.filter_append]
      rfl
    rw [List.foldl_cons, hcons, List.length_append, List.map_append]
    refine ⟨by rw [i₁, h₁, Nat.add_assoc], ?_, fun i hi => ?_⟩
    · rw [i₂, h₂, List.append_assoc]
    · rw [i₃ i hi, h₃ i (by omega)]

/-! ## When the map is read exactly -/

/-- The number of steps up to the end pointer. -/
def stepCount (addr length : Nat) : Nat := (mmapEnd addr length - addr + 23) / 24

/-- The steps up to the end pointer meet entries only and stay in the address space, no entry of
interest comes behind them, and there is room for what they meet. -/
structure InStep (mem : ByteMem) (addr length : Nat) (es : List Nat) : Prop where
  entries : ∀ k < stepCount addr length, addr + 24 * k ∈ es
  space : addr + 24 * stepCount addr length < addrSpace
  rest : ∀ a ∈ es, isKernelRam mem a = true → a < addr + 24 * stepCount addr length
  room : (es.filter (isKernelRam mem)).length ≤ e820Max

theorem mmapEnd_lt (addr length : Nat) : mmapEnd addr length < addrSpace :=
  Nat.mod_lt _ (by decide)

theorem step_lt {k : Nat} (hk : k < stepCount addr length) :
    addr + 24 * k < mmapEnd addr length := by
  unfold stepCount at hk
  omega

theorem le_step : mmapEnd addr length ≤ addr + 24 * stepCount addr length := by
  unfold stepCount
  omega

/-- The walk in a buffer it stays in step with up to its end. -/
theorem getRamInfo_inStep (hspace : addr + 24 * stepCount addr length < addrSpace) :
    ∃ m, getRamInfo mem addr length .zero =
        .ok (m, List.range' addr (stepCount addr length) 24) ∧
      m.count = ((List.range' addr (stepCount addr length) 24).filter (isKernelRam mem)).length ∧
      (List.range m.count).map m.map =
        ((List.range' addr (stepCount addr length) 24).filter (isKernelRam mem)).map
          (entryAt mem) ∧
      ∀ i, m.count ≤ i → m.map i = E820Map.zero.map i := by
  have hfuel : stepCount addr length < addrSpace := by omega
  have hsize : addrSpace = 2 ^ 32 := rfl
  have hfold := foldl_recordEntry mem (List.range' addr (stepCount addr length) 24) .zero
    (by rw [List.length_range']; show 0 + stepCount addr length < 2 ^ 32; omega)
  refine ⟨_, scanEntries_steps (fun k hk => step_lt hk) le_step hspace hfuel, ?_, hfold.2⟩
  rw [hfold.1]
  exact Nat.zero_add _

theorem Buffer.filter_ram (h : Buffer mem addr length es)
    (hsteps : ∀ k < c, addr + 24 * k ∈ es) :
    ((List.range' addr c 24).filter (isKernelRam mem)).Sublist (es.filter (isKernelRam mem)) := by
  rw [← h.filter_steps hsteps]
  exact List.filter_sublist.filter _

theorem InStep.exact (h : Buffer mem addr length es) (hs : InStep mem addr length es) :
    ReadsExactly mem addr length es := by
  obtain ⟨m, hm, hcount, hrec, hkept⟩ := @getRamInfo_inStep mem addr length hs.space
  have hram : (List.range' addr (stepCount addr length) 24).filter (isKernelRam mem) =
      es.filter (isKernelRam mem) := by
    rw [← h.filter_steps hs.entries, List.filter_filter]
    refine List.filter_congr fun a ha => ?_
    rw [Bool.and_eq_left_iff_imp]
    exact fun hk => decide_eq_true (hs.rest a ha hk)
  rw [hram] at hcount hrec
  refine ⟨_, hm, fun a ha => ?_, hrec, hcount.trans_le hs.room, fun i hi => hkept i ?_⟩
  · obtain ⟨k, hk, rfl⟩ := List.mem_range'.mp ha
    exact hs.entries k hk
  · exact (hcount.trans_le hs.room).trans hi

/-- A walk that comes round the end of the address space looks at an address in front of the
buffer, or inside an entry. -/
theorem Buffer.space_of_looked (h : Buffer mem addr length es) {r : E820Map × List Nat}
    (hr : getRamInfo mem addr length m = .ok r) (hl : ∀ a ∈ r.2, a ∈ es) :
    (∀ k < stepCount addr length, addr + 24 * k ∈ es) ∧
      addr + 24 * stepCount addr length < addrSpace := by
  obtain ⟨fuel', m', r', hr', hlooked⟩ := scanEntries_prefix (mmapEnd_lt addr length).le h.start
    (fun k hk => step_lt hk) hr
  have hentries : ∀ k < stepCount addr length, addr + 24 * k ∈ es := by
    intro k hk
    refine hl _ ?_
    rw [hlooked]
    exact List.mem_append_left _ (List.mem_range'.mpr ⟨k, hk, rfl⟩)
  refine ⟨hentries, ?_⟩
  by_contra hround
  have hend := mmapEnd_lt addr length
  have hstart := h.start
  have hpos : 0 < stepCount addr length := by omega
  have hlast := step_lt (Nat.sub_lt hpos Nat.one_pos)
  have hspace : addrSpace = 2 ^ 32 := rfl
  have hwrap : u32 (addr + 24 * stepCount addr length) =
      addr + 24 * stepCount addr length - 2 ^ 32 := by
    unfold u32
    omega
  rw [hwrap] at hr'
  have hhead := scanEntries_head (by omega) hr'
  have hmem : addr + 24 * stepCount addr length - 2 ^ 32 ∈ es := by
    refine hl _ ?_
    rw [hlooked]
    exact List.mem_append_right _ hhead
  have hb := h.bounds hmem
  have hfirst := hentries 0 hpos
  have := h.eq_of_near hfirst hmem (by omega) (by omega)
  omega

theorem readsExactly_iff (h : Buffer mem addr length es) :
    ReadsExactly mem addr length es ↔ InStep mem addr length es := by
  refine ⟨?_, fun hs => hs.exact h⟩
  rintro ⟨r, hr, hx⟩
  obtain ⟨hentries, hspace⟩ := h.space_of_looked hr hx.looked
  obtain ⟨m, hm, hcount, hrec, -⟩ := @getRamInfo_inStep mem addr length hspace
  obtain rfl : r = _ := Except.ok.inj (hr.symm.trans hm)
  have hlen := congrArg List.length (hrec.symm.trans hx.recorded)
  rw [List.length_map, List.length_map] at hlen
  have hram := (h.filter_ram hentries).eq_of_length hlen
  refine ⟨hentries, hspace, fun a ha hk => ?_, ?_⟩
  · have hmem : a ∈ es.filter (isKernelRam mem) := List.mem_filter.mpr ⟨ha, hk⟩
    rw [← hram] at hmem
    obtain ⟨k, hk, rfl⟩ := List.mem_range'.mp (List.mem_of_mem_filter hmem)
    omega
  · rw [← hram, ← hcount]
    exact hx.room

/-- Without coming round, the end pointer is `length` entries behind the start. -/
theorem inStep_iff_of_lt (h : Buffer mem addr length es) (hlt : addr + 24 * length < addrSpace) :
    InStep mem addr length es ↔ length = 0 := by
  have hcount : stepCount addr length = length := by
    rw [stepCount, mmapEnd, sizeofMmapEntry, u32_of_lt hlt]
    omega
  constructor
  · intro hs
    by_contra hpos
    have hlast := hs.entries (length - 1) (by omega)
    have := h.bounds hlast
    omega
  · rintro rfl
    have hnil : ∀ a, a ∉ es := by
      intro a ha
      have := h.bounds ha
      omega
    refine ⟨fun k hk => absurd hk (by omega), by omega, fun a ha => absurd ha (hnil a), ?_⟩
    rw [List.eq_nil_iff_forall_not_mem.mpr hnil]
    exact Nat.zero_le _

/-- **When the boot memory map is read exactly.** A walk whose end pointer has not come round the
address space is exact for the empty buffer only. -/
theorem getRamInfo_exact_iff (h : Buffer mem addr length es) :
    (ReadsExactly mem addr length es ↔ InStep mem addr length es) ∧
      (addr + 24 * length < addrSpace → (ReadsExactly mem addr length es ↔ length = 0)) :=
  ⟨readsExactly_iff h, fun hlt => (readsExactly_iff h).trans (inStep_iff_of_lt h hlt)⟩

/-- One entry of the kernel's RAM at `0x600`, of `0xAAAAAAB` bytes. -/
def longEntry : ByteMem := fun a =>
  if a = 0x600 then 0xA7 else if a = 0x601 ∨ a = 0x602 then 0xAA else if a = 0x603 then 0x0A
  else if a = 0x606 then 0x10 else if a = 0x614 then 1 else 0

/-- So long that the end pointer comes round to eight bytes behind the start. -/
theorem getRamInfo_exact_long : isKernelRam longEntry 0x600 = true ∧
    ReadsExactly longEntry 0x600 0xAAAAAAB [0x600] := by
  have hend : 0x600 + (readWord longEntry 0x600 + 4) = 0x600 + 0xAAAAAAB := by decide
  have hsteps : stepCount 0x600 0xAAAAAAB = 1 := by decide
  have h : Buffer longEntry 0x600 0xAAAAAAB [0x600] := by
    refine ⟨⟨rfl, hend⟩, fun a ha => ?_, by decide, by decide⟩
    rw [List.mem_singleton.mp ha]
    decide
  refine ⟨by decide, (getRamInfo_exact_iff h).1.mpr ⟨fun k hk => ?_, ?_, fun a ha _ => ?_, by decide⟩⟩
  · rw [hsteps] at hk
    obtain rfl := Nat.lt_one_iff.1 hk
    exact List.mem_singleton_self _
  · rw [hsteps]
    decide
  · rw [List.mem_singleton.1 ha, hsteps]
    decide

/-- An entry of the kernel's RAM at every multiple of 24. -/
def ramEntries : ByteMem := fun a =>
  if a % 24 = 0 then 20 else if a % 24 = 6 then 0x10 else if a % 24 = 20 then 1 else 0

/-- A buffer of one entry, with stale copies of it behind. All 24 entries that start in the 576 bytes
from its start on are recorded, four of them behind the array. -/
theorem getRamInfo_overruns : Buffer ramEntries 0x600 24 [0x600] ∧
    (∃ r, getRamInfo ramEntries 0x600 24 .zero = .ok r ∧ r.1.count = 24) ∧
    ¬ ReadsExactly ramEntries 0x600 24 [0x600] := by
  have h : Buffer ramEntries 0x600 24 [0x600] := by
    have hend : 0x600 + (readWord ramEntries 0x600 + 4) = 0x600 + 24 := by decide
    refine ⟨⟨rfl, hend⟩, fun a ha => ?_, by decide, by decide⟩
    rw [List.mem_singleton.mp ha]
    decide
  refine ⟨h, ?_, fun hx => ?_⟩
  · obtain ⟨m, hm, hcount, -⟩ := @getRamInfo_inStep ramEntries 0x600 24 (by decide)
    exact ⟨_, hm, hcount.trans (by decide)⟩
  · exact absurd ((inStep_iff_of_lt h (by decide)).mp ((readsExactly_iff h).mp hx)) (by decide)

end Hurlex
