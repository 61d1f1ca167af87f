import Mathlib.Logic.Function.Basic
import Hurlex.Driver.Registry
import Hurlex.Fs.Mbr

/-!
# Finding the disk (`ide_init` in `driver/ide.c`, `block_dev_init` in `driver/block_dev.c`)

`ide_init` asks the drive to identify itself and fills `ide_device` from the 512 bytes it sends. The
model name comes with the two bytes of each word exchanged and with blanks behind it; a loop that runs
backwards turns these into the end of the string.

* **`ideInit_device`**: what `ide_device` is after `ide_init`, whatever the drive sends.
* **`blockDevInit_found`**: `block_dev_init` registers the disk only if it has been found.
-/

namespace Hurlex.Ide

def ideCmdIdentify : Byte := 0xEC

def ideIdentModel : Nat := 54
def ideIdentMaxLba : Nat := 120
def ideIdentCmdsets : Nat := 164
def ideIdentMaxLbaExt : Nat := 200

def ideDescLen : Nat := 40

/-- `struct ide_device`. -/
@[ext]
structure IdeDevice where
  valid : Nat
  sets : BitVec 32
  size : BitVec 32
  desc : Nat → Byte

/-- `*(uint32_t *)(ident + k)`. -/
def identWord (ident : Nat → Byte) (k : Nat) : BitVec 32 :=
  ident (k + 3) ++ ident (k + 2) ++ ident (k + 1) ++ ident k

/-- The loop that copies the description, two bytes a turn. -/
def copyDesc (data desc : Nat → Byte) : Nat → Nat → Byte
  | 0 => desc
  | turns + 1 =>
    let desc := copyDesc data desc turns
    let i := 2 * turns
    Function.update (Function.update desc i (data (i + 1))) (i + 1) (data i)

/-- The loop that ends the string, from `desc[i]` on. -/
def endDesc : Nat → (Nat → Byte) → Nat → Byte
  | 0, desc => Function.update desc 0 0
  | i + 1, desc =>
    let desc := Function.update desc (i + 1) 0
    if desc i = 0x20 then endDesc i desc else desc

/-- What `ide_init` makes of the bytes the drive sends. -/
def identified (ident : Nat → Byte) (dev : IdeDevice) : IdeDevice :=
  let cmdsets := identWord ident ideIdentCmdsets
  let sectors := if cmdsets &&& (1 <<< 26) ≠ 0 then identWord ident ideIdentMaxLbaExt
    else identWord ident ideIdentMaxLba
  let desc := copyDesc (fun i => ident (ideIdentModel + i)) dev.desc (ideDescLen / 2)
  { valid := 1, sets := cmdsets, size := sectors, desc := endDesc ideDescLen desc }

section Code

variable (disk : Disk) (ident : Nat → Byte) (fuel buffer : Nat)

/-- `ide_wait_ready`, and what follows if it returns. -/
def afterWait (checkError : Bool) (log : List Access) (k : Int → List Access → Outcome) : Outcome :=
  match ideWaitReady disk iobase checkError fuel log with
  | (.error e, log) => (.error e, log)
  | (.ok ret, log) => k ret log

/-- What `ide_init` does at the ports, with its buffer at `buffer`. -/
def ideProbe (log : List Access) : Outcome :=
  afterWait disk fuel false log fun _ log =>
  afterWait disk fuel false (log ++ [.outb (iobase + isaSdh) 0xE0]) fun _ log =>
  afterWait disk fuel false (log ++ [.outb (iobase + isaCommand) ideCmdIdentify]) fun _ log =>
  let r := disk log
  let log := log ++ [.inb (iobase + isaStatus) r]
  if r = 0 then (.ok (-1), log)
  else
    afterWait disk fuel true log fun ret log =>
    if ret ≠ 0 then (.ok (-1), log) else (.ok 0, log ++ [.insl iobase buffer 128])

/-- `ide_init`, where the drive sends `ident`. -/
def ideInit (dev : IdeDevice) (log : List Access) : Outcome × IdeDevice :=
  match ideProbe disk fuel buffer log with
  | (.ok 0, log) => ((.ok 0, log), identified ident dev)
  | out => (out, dev)

/-- `ide_device_valid`. -/
def ideDeviceValid (dev : IdeDevice) : Bool := dev.valid = 1

/-- `block_dev_init`, with `ide_main_dev` at `main` and `mbr_info` at `mbrInfo`; `mem` and `name` are
those of the list of block devices. -/
def blockDevInit (mem : ByteMem) (name : Nat → Nat) (main mbrInfo : Nat) (dev : IdeDevice)
    (devs : Registry) (log : List Access) : Kern Registry × IdeDevice × List Access :=
  match ideInit disk ident fuel buffer dev log with
  | ((.error e, log), dev) => (.error e, dev, log)
  | ((.ok ret, log), dev) =>
    if ret = -1 then (.ok devs, dev, log)
    else
      match addBlockDev mem name devs main with
      | .error e => (.error e, dev, log)
      | .ok (_, devs) =>
        if ideDeviceValid dev = false then (.ok devs, dev, log)
        else
          match Mbr.readMbrInfo disk dev.valid fuel mbrInfo log with
          | (.error e, log) => (.error e, dev, log)
          | (.ok _, log) => (.ok devs, dev, log)

end Code

/-! ## The description -/

/-- The byte of a pair that is not this one. -/
def paired (j : Nat) : Nat := if j % 2 = 0 then j + 1 else j - 1

/-- `d` is the model name at `data` as a string: its pairs exchanged, the blanks at its end left out,
and zeros from there on. -/
def Describes (data d : Nat → Byte) : Prop :=
  ∃ k ≤ ideDescLen, (∀ j < k, d j = data (paired j)) ∧ (∀ j, k ≤ j → j ≤ ideDescLen → d j = 0) ∧
    (∀ j, k ≤ j → j < ideDescLen → data (paired j) = 0x20) ∧
    (k = 0 ∨ data (paired (k - 1)) ≠ 0x20)

variable {data desc : Nat → Byte}

theorem copyDesc_spec (data desc : Nat → Byte) (turns : Nat) :
    copyDesc data desc turns = fun j => if j < 2 * turns then data (paired j) else desc j := by
  induction turns with
  | zero => exact funext fun j => (if_neg (Nat.not_lt_zero j)).symm
  | succ turns ih =>
    funext j
    rw [copyDesc, ih]
    by_cases hodd : j = 2 * turns + 1
    · subst hodd
      have hp : paired (2 * turns + 1) = 2 * turns := by
        rw [paired, if_neg (by omega), Nat.add_sub_cancel]
      rw [Function.update_self, if_pos (by omega), hp]
    rw [Function.update_of_ne hodd]
    by_cases heven : j = 2 * turns
    · subst heven
      have hp : paired (2 * turns) = 2 * turns + 1 := if_pos (Nat.mul_mod_right 2 turns)
      rw [Function.update_self, if_pos (by omega), hp]
    rw [Function.update_of_ne heven]
    have hiff : j < 2 * (turns + 1) ↔ j < 2 * turns := by omega
    simp only [hiff]

/-- The loop goes back over blanks, to the last character that is none. -/
theorem endDesc_spec (n : Nat) (desc : Nat → Byte) :
    ∃ k ≤ n, (∀ j, endDesc n desc j = if k ≤ j ∧ j ≤ n then 0 else desc j) ∧
      (∀ j, k ≤ j → j < n → desc j = 0x20) ∧ (k = 0 ∨ desc (k - 1) ≠ 0x20) := by
  induction n generalizing desc with
  | zero =>
    refine ⟨0, le_rfl, fun j => ?_, fun j _ h => absurd h (Nat.not_lt_zero j), .inl rfl⟩
    rw [endDesc, Function.update_apply]
    exact if_congr ⟨fun h => ⟨Nat.zero_le j, h.le⟩, fun h => Nat.le_zero.1 h.2⟩ rfl rfl
  | succ n ih =>
    have hn : Function.update desc (n + 1) 0 n = desc n :=
      Function.update_of_ne (Nat.ne_of_lt (Nat.lt_succ_self n)) ..
    rw [endDesc]
    rw [hn]
    by_cases hblank : desc n = 0x20
    · rw [if_pos hblank]
      obtain ⟨k, hk, hd, hb, hstop⟩ := ih (Function.update desc (n + 1) 0)
      refine ⟨k, Nat.le_succ_of_le hk, fun j => ?_, fun j hkj hj => ?_, hstop.imp_right fun h => ?_⟩
      · rw [hd j, Function.update_apply]
        by_cases hlast : j = n + 1
        · rw [if_neg (by omega), if_pos hlast, if_pos (by omega)]
        · rw [if_neg hlast]
          refine if_congr ⟨fun h => ⟨h.1, Nat.le_succ_of_le h.2⟩, fun h => ⟨h.1, by omega⟩⟩ rfl rfl
      · rcases Nat.lt_succ_iff_lt_or_eq.1 hj with hj | rfl
        · rw [← hb j hkj hj, Function.update_of_ne (by omega)]
        · exact hblank
      · rwa [Function.update_of_ne (by omega)] at h
    · rw [if_neg hblank]
      refine ⟨n + 1, le_rfl, fun j => ?_, fun j h1 h2 => absurd h1 (Nat.not_le.2 h2), .inr hblank⟩
      rw [Function.update_apply]
      exact if_congr ⟨fun h => ⟨h.ge, h.le⟩, fun h => Nat.le_antisymm h.2 h.1⟩ rfl rfl

/-- The loops of `ide_init` make a string of the model name. -/
theorem describes_desc (data desc : Nat → Byte) :
    Describes data (endDesc ideDescLen (copyDesc data desc (ideDescLen / 2))) := by
  obtain ⟨k, hk, hd, hb, hstop⟩ := endDesc_spec ideDescLen (copyDesc data desc (ideDescLen / 2))
  have hcopy : ∀ j < ideDescLen, copyDesc data desc (ideDescLen / 2) j = data (paired j) := by
    intro j hj
    rw [copyDesc_spec]
    exact if_pos hj
  refine ⟨k, hk, fun j hj => ?_, fun j hkj hj => ?_, fun j hkj hj => ?_, ?_⟩
  · rw [hd, if_neg fun h => absurd hj (Nat.not_lt.2 h.1), hcopy j (hj.trans_le hk)]
  · rw [hd, if_pos ⟨hkj, hj⟩]
  · rw [← hcopy j hj, hb j hkj hj]
  · rcases Nat.eq_zero_or_pos k with h0 | hpos
    · exact .inl h0
    · rw [hcopy (k - 1) (by omega)] at hstop
      exact hstop

/-! ## The device -/

variable {disk : Disk} {fuel : Nat} {log : List Access}

/-- Bit 26 of the command sets: the disk has 48-bit addresses. -/
theorem cmdsets_bit (x : BitVec 32) : x &&& (1 <<< 26) ≠ 0 ↔ x.getLsbD 26 = true := by
  have h : x &&& (1 <<< 26) = if x.getLsbD 26 then BitVec.twoPow 32 26 else 0#32 :=
    BitVec.and_twoPow x 26
  rw [h]
  cases x.getLsbD 26 with
  | false => exact iff_of_false (fun h => h rfl) (by decide)
  | true => exact iff_of_true (by decide) rfl

/-- The drive's 512 bytes are fetched, or nothing is. -/
def Probed (log : List Access) (out : Outcome) : Prop :=
  ∃ r new, out = (r, log ++ new) ∧
    (r = .ok 0 ∧ moved new = 512 ∨ (r = .ok (-1) ∨ r = .error .noReturn) ∧ moved new = 0)

theorem Probed.behind {l : List Access} {out : Outcome} (h : Probed (log ++ l) out)
    (hl : moved l = 0) : Probed log out := by
  obtain ⟨r, new, rfl, hr⟩ := h
  refine ⟨r, l ++ new, by rw [List.append_assoc], ?_⟩
  rwa [moved_append, hl, Nat.zero_add]

/-- Waiting moves nothing, and if it does not end nothing else happens. -/
theorem probed_afterWait {checkError : Bool} {k : Int → List Access → Outcome}
    (hk : ∀ ret log, Probed log (k ret log)) (log : List Access) :
    Probed log (afterWait disk fuel checkError log k) := by
  obtain ⟨r, new, heq, hm, -, herr⟩ := @ideWaitReady_spec disk checkError fuel log
  rw [afterWait, heq]
  cases r with
  | error e => exact ⟨_, new, rfl, .inr ⟨.inr (herr e rfl ▸ rfl), hm⟩⟩
  | ok ret => exact (hk ret (log ++ new)).behind hm

theorem ideProbe_probed (disk : Disk) (fuel buffer : Nat) (log : List Access) :
    Probed log (ideProbe disk fuel buffer log) := by
  refine probed_afterWait (fun _ log => ?_) log
  refine (probed_afterWait (fun _ log => ?_) _).behind rfl
  refine (probed_afterWait (fun _ log => ?_) _).behind rfl
  dsimp only
  split
  · exact ⟨_, _, rfl, .inr ⟨.inl rfl, rfl⟩⟩
  · refine (probed_afterWait (fun ret log => ?_) _).behind rfl
    split
    · exact ⟨_, [], by rw [List.append_nil], .inr ⟨.inl rfl, rfl⟩⟩
    · exact ⟨_, _, rfl, .inl ⟨rfl, rfl⟩⟩

/-- **What `ide_init` finds out.** Either the drive's 512 bytes have been fetched, and the device is
valid, with the size for the addresses it can take and with the model name as a string; or it is as it
was, and no data were moved. -/
theorem ideInit_device (disk : Disk) (ident : Nat → Byte) (fuel buffer : Nat) (dev : IdeDevice)
    (log : List Access) :
    ∃ r new dev', ideInit disk ident fuel buffer dev log = ((r, log ++ new), dev') ∧
      (r = .ok 0 ∧ moved new = 512 ∧ dev'.valid = 1 ∧
          dev'.sets = identWord ident ideIdentCmdsets ∧
          dev'.size = (if dev'.sets.getLsbD 26 then identWord ident ideIdentMaxLbaExt
            else identWord ident ideIdentMaxLba) ∧
          Describes (fun i => ident (ideIdentModel + i)) dev'.desc ∨
        (r = .ok (-1) ∨ r = .error .noReturn) ∧ moved new = 0 ∧ dev' = dev) := by
  obtain ⟨r, new, heq, hr⟩ := ideProbe_probed disk fuel buffer log
  unfold ideInit
  rw [heq]
  obtain ⟨rfl, hm⟩ | ⟨rfl | rfl, hm⟩ := hr
  · refine ⟨_, new, _, rfl, .inl ⟨rfl, hm, rfl, rfl, ?_, describes_desc _ _⟩⟩
    exact if_congr (cmdsets_bit _) rfl rfl
  · exact ⟨_, new, dev, rfl, .inr ⟨.inl rfl, hm, rfl⟩⟩
  · exact ⟨_, new, dev, rfl, .inr ⟨.inr rfl, hm, rfl⟩⟩

/-- **Only a disk that was found is registered.** -/
theorem blockDevInit_found (disk : Disk) (ident : Nat → Byte) (fuel buffer : Nat) (mem : ByteMem)
    (name : Nat → Nat) (main mbrInfo : Nat) (dev : IdeDevice) (devs : Registry)
    (log : List Access) :
    let out := blockDevInit disk ident fuel buffer mem name main mbrInfo dev devs log
    out.2.1.valid = 1 ∨ out.2.1 = dev ∧ ∀ devs', out.1 = .ok devs' → devs' = devs := by
  obtain ⟨r, new, dev', heq, hr⟩ := ideInit_device disk ident fuel buffer dev log
  unfold blockDevInit
  rw [heq]
  obtain ⟨rfl, -, hvalid, -⟩ | ⟨rfl | rfl, -, rfl⟩ := hr
  · left
    dsimp only
    rw [if_neg (by decide)]
    split
    · exact hvalid
    · split
      · exact hvalid
      · split <;> exact hvalid
  · exact .inr ⟨rfl, fun devs' h => (Except.ok.inj h).symm⟩
  · exact .inr ⟨rfl, fun devs' h => by cases h⟩

end Hurlex.Ide
