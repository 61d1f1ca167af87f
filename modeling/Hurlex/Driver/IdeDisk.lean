import Hurlex.Driver.IdeBus

/-!
# What disk requests do (`ide_request` in `driver/ide.c`, lines 209 to 225)

What a caller has is an array of sectors (`Served`): a request that returns 0 has handed all its sectors
over, one that returns -1 was refused or has moved fewer. A sector is lost only if the drive reports an
error right after it was written, which the driver does not look for. The drive and what is assumed of
its status (`Complies`) are those of `IdeBus`.

* **`requests_served`**: every run of requests does that to the drive, which understands each access,
  and finds it at rest again, provided no request is for zero sectors.
* **`request_rests_iff`**: a request for zero sectors leaves the drive waiting for 256 of them.
* **`written_read_back`**: what was written is what is read, the last sector only if the status after it
  shows no error.

Out of scope: `ide_init`, which stands in `IdeInit`, and the interrupts, which the driver turns off.
-/

namespace Hurlex.Ide

open Lib.Machine Lib.Ata

variable {disk : Disk} {s s' : System} {log new l l' : List Access} {dir : Dir}

/-! ## Requests -/

/-- The direction of a request. -/
def IoRequest.direction (req : IoRequest) : Option Dir :=
  if req.ioType = ioRead then some .toHost else if req.ioType = ioWrite then some .toDisk else none

/-- What is where when `n` sectors of a request were moved. -/
def IoRequest.done (req : IoRequest) (n : Nat) (c : Contents) : Contents :=
  match req.direction with
  | some dir => c.transfer dir req.secno (BitVec.ofNat 32 req.buffer) (sectorBytes * n)
  | none => c

/-- The buffer is large enough, and the sectors are there. -/
structure IoRequest.Fits (req : IoRequest) : Prop where
  known : req.Known
  nsecs : req.nsecs ≤ maxNsecs
  buffer : sectsize * req.nsecs ≤ req.bsize
  sectors : req.secno + req.nsecs ≤ maxDiskNsecs

/-- The sector that was written last after `n` sectors of a request. -/
def IoRequest.last (req : IoRequest) (n : Nat) : Option Nat :=
  match req.direction with
  | some dir => lastWritten dir req.secno n
  | none => none

/-- **What a request does** to a drive at rest, where a fault can still cost sector `o`. -/
inductive Answered (o : Option Nat) (req : IoRequest) (s : System) :
    Kern Int → List Access → System → Prop where
  | refuses (hreq : ¬ req.Fits) : Answered o req s (.ok (-1)) [] s
  | fails (hreq : req.Fits) {n : Nat} (hn : n < req.nsecs) {c : Contents}
      (hloses : s.contents.Loses o c) {new : List Access} {s' : System}
      (hlast : (req.done n c).Loses (req.last n) s'.contents) (hjob : s'.drive.job = .idle)
      (hnone : s'.drive.unsettled = none) : Answered o req s (.ok (-1)) new s'
  | halts (e : Halt) {n : Nat} (hn : n < req.nsecs ∨ n = 0) {c : Contents}
      (hloses : s.contents.Loses o c) {new : List Access} {s' : System}
      (hmoved : s'.contents = req.done n c) : Answered o req s (.error e) new s'
  | serves (hreq : req.Fits) {c : Contents} (hloses : s.contents.Loses o c) {new : List Access}
      {s' : System} (hmoved : s'.contents = req.done req.nsecs c)
      (hlast : s'.drive.unsettled = req.last req.nsecs)
      (hjob : s'.drive.job = .idle ↔ req.nsecs ≠ 0) : Answered o req s (.ok 0) new s'

theorem rest_asked (dir : Dir) (lba n : Nat) : Job.rest dir lba (asked n) n = .idle ↔ n ≠ 0 := by
  unfold Job.rest asked
  by_cases hn : n = 0
  · subst hn
    simp
  · simp [hn]

theorem done_read {req : IoRequest} (h : req.ioType = ioRead) (n : Nat) (c : Contents) :
    req.done n c =
      c.transfer .toHost req.secno (BitVec.ofNat 32 req.buffer) (sectorBytes * n) := by
  rw [IoRequest.done, IoRequest.direction, if_pos h]

theorem done_write {req : IoRequest} (h : req.ioType = ioWrite) (n : Nat) (c : Contents) :
    req.done n c =
      c.transfer .toDisk req.secno (BitVec.ofNat 32 req.buffer) (sectorBytes * n) := by
  rw [IoRequest.done, IoRequest.direction, h]
  rfl

theorem done_zero (req : IoRequest) (c : Contents) : req.done 0 c = c := by
  unfold IoRequest.done
  cases req.direction with
  | none => rfl
  | some dir => exact transfer_zero ..

section Requests

variable {req : IoRequest} {c c' : Contents} {valid fuel : Nat}

/-- A request whose sectors are read or written. -/
theorem answered_of_ideSecs {move : Nat → Access} {cmd : Byte} {info : String}
    (hmove : ∀ s addr, busStep s (move addr) = s.data dir (BitVec.ofNat 32 addr))
    (hcmd : commandDir cmd = some dir) (hdir : req.direction = some dir) (hknown : req.Known)
    (hsize : u32 (sectsize * req.nsecs) ≤ req.bsize) (h : Complies disk s log)
    (hs : s.drive.job = .idle) :
    ∃ r new s', ideSecs disk info cmd move valid fuel req.secno req.buffer req.nsecs log =
        (r, log ++ new) ∧
      busRun s new = some s' ∧ Answered (doomed disk fuel s.drive.unsettled log) req s r new s' := by
  have hdone : ∀ n c, req.done n c =
      c.transfer dir (req.secno + 0) (BitVec.ofNat 32 req.buffer) (sectorBytes * n) := by
    intro n c
    rw [IoRequest.done, hdir]
    rfl
  have hlastWritten : ∀ n, req.last n = lastWritten dir req.secno (0 + n) := by
    intro n
    rw [IoRequest.last, hdir, Nat.zero_add]
  obtain ⟨e, new, s', heq, hbus, hcontents⟩ | ⟨hn, hsum, r, new, s', c, heq, hbus, hloses, hend⟩ :=
    ideSecs_bus hmove hcmd h hs info valid fuel req.secno req.buffer req.nsecs
  · refine ⟨_, new, s', heq, hbus, .halts e (.inr rfl) (.refl _ _) ?_⟩
    rw [hcontents, done_zero]
  · rw [u32_sectors hn] at hsize
    have hfits : req.Fits := ⟨hknown, hn, hsize, hsum⟩
    refine ⟨r, new, s', heq, hbus, ?_⟩
    cases hend with
    | moved hmoved hjob hlast =>
      refine .serves hfits hloses (hmoved.trans (hdone ..).symm) (hlast.trans (hlastWritten _).symm) ?_
      rw [hjob, Nat.zero_add]
      exact rest_asked ..
    | failed hk hmoved hjob hlast =>
      rw [← hdone, ← hlastWritten] at hmoved
      exact .fails hfits hk hloses hmoved hjob hlast
    | stays hk hmoved => exact .halts _ (.inl hk) hloses (hmoved.trans (hdone ..).symm)

/-- **One request**, to a drive at rest. -/
theorem ideRequest_bus (h : Complies disk s log) (hs : s.drive.job = .idle) (valid fuel : Nat)
    (req : IoRequest) :
    ∃ r new s', ideRequest disk valid fuel req log = (r, log ++ new) ∧ busRun s new = some s' ∧
      Answered (doomed disk fuel s.drive.unsettled log) req s r new s' := by
  have hrefused : ¬ req.Fits → ∃ r new s', (Except.ok (-1), log) = ((r : Kern Int), log ++ new) ∧
      busRun s new = some s' ∧ Answered (doomed disk fuel s.drive.unsettled log) req s r new s' :=
    fun hreq => ⟨_, [], s, by rw [List.append_nil], rfl, .refuses hreq⟩
  have hsmall : req.bsize < u32 (sectsize * req.nsecs) → ¬ req.Fits := fun hlt hreq =>
    Nat.not_le.2 (hlt.trans_eq (u32_sectors hreq.nsecs)) hreq.buffer
  unfold ideRequest
  by_cases hread : req.ioType = ioRead
  · rw [if_pos hread]
    by_cases hlt : req.bsize < u32 (sectsize * req.nsecs)
    · rw [if_pos hlt]
      exact hrefused (hsmall hlt)
    · rw [if_neg hlt]
      exact answered_of_ideSecs busStep_insl rfl (if_pos hread) (.inl hread)
        (Nat.le_of_not_lt hlt) h hs
  · rw [if_neg hread]
    by_cases hwrite : req.ioType = ioWrite
    · rw [if_pos hwrite]
      by_cases hlt : req.bsize < u32 (sectsize * req.nsecs)
      · rw [if_pos hlt]
        exact hrefused (hsmall hlt)
      · rw [if_neg hlt]
        exact answered_of_ideSecs busStep_outsl rfl ((if_neg hread).trans (if_pos hwrite)) (.inr hwrite)
          (Nat.le_of_not_lt hlt) h hs
    · rw [if_neg hwrite]
      exact hrefused fun hreq => hreq.known.elim hread hwrite

theorem last_read (hread : req.ioType = ioRead) (n : Nat) : req.last n = none := by
  rw [IoRequest.last, IoRequest.direction, if_pos hread]
  rfl

/-- **Reading**, where no fault can cost anything. -/
theorem Answered.read {r : Kern Int} {new : List Access} (h : Answered none req s r new s')
    (hread : req.ioType = ioRead) :
    ∃ n, s'.contents = req.done n s.contents ∧
      (r = .ok 0 ∧ n = req.nsecs ∨ r ≠ .ok 0 ∧ (n < req.nsecs ∨ n = 0)) := by
  cases h with
  | refuses hreq => exact ⟨0, (done_zero ..).symm, .inr ⟨nofun, .inr rfl⟩⟩
  | @fails _ n hn _ hloses _ _ hlast =>
    rw [hloses.eq, last_read hread] at hlast
    exact ⟨n, hlast.eq, .inr ⟨nofun, .inl hn⟩⟩
  | @halts e n hn _ hloses _ _ hmoved =>
    rw [hloses.eq] at hmoved
    exact ⟨n, hmoved, .inr ⟨nofun, hn⟩⟩
  | serves hreq hloses hmoved =>
    rw [hloses.eq] at hmoved
    exact ⟨req.nsecs, hmoved, .inl ⟨rfl, rfl⟩⟩

end Requests

/-- A drive at rest with nothing on it, and the memory of zeros but for one byte. -/
def smallSystem : System where
  mem := fun x => if x = 0x1001 then 7 else 0
  drive := ⟨fun _ => 0, ⟨0, 0, 0, 0, 0⟩, .idle, false, none, fun _ _ => 0⟩

/-- Requests one after the other, as long as they return. -/
def ideRequests (disk : Disk) (valid fuel : Nat) : List IoRequest → List Access →
    List (Kern Int) × List Access
  | [], log => ([], log)
  | req :: reqs, log =>
    match ideRequest disk valid fuel req log with
    | (.error e, log) => ([.error e], log)
    | (.ok v, log) =>
      let (rs, log) := ideRequests disk valid fuel reqs log
      (.ok v :: rs, log)

/-- **What callers have**: the answers to their requests, and the memory and the sectors before and
after, where a fault can still cost sector `o`. -/
inductive Served : Option Nat → List IoRequest → List (Kern Int) → Contents → Contents → Prop where
  | nil (o : Option Nat) (c : Contents) : Served o [] [] c c
  | refuses {o : Option Nat} {req : IoRequest} {reqs : List IoRequest} {rs : List (Kern Int)}
      {c c' : Contents} (hreq : ¬ req.Fits) (h : Served o reqs rs c c') :
      Served o (req :: reqs) (.ok (-1) :: rs) c c'
  | fails {o : Option Nat} {req : IoRequest} {reqs : List IoRequest} {rs : List (Kern Int)}
      {c c₁ c₂ c' : Contents} (hreq : req.Fits) {n : Nat} (hn : n < req.nsecs) (hloses : c.Loses o c₁)
      (hlast : (req.done n c₁).Loses (req.last n) c₂) (h : Served none reqs rs c₂ c') :
      Served o (req :: reqs) (.ok (-1) :: rs) c c'
  | halts {o : Option Nat} {req : IoRequest} {reqs : List IoRequest} {c c₁ : Contents} (e : Halt)
      {n : Nat} (hn : n < req.nsecs) (hloses : c.Loses o c₁) :
      Served o (req :: reqs) [.error e] c (req.done n c₁)
  | serves {o : Option Nat} {req : IoRequest} {reqs : List IoRequest} {rs : List (Kern Int)}
      {c c₁ c' : Contents} (hreq : req.Fits) (hloses : c.Loses o c₁)
      (h : Served (req.last req.nsecs) reqs rs (req.done req.nsecs c₁) c') :
      Served o (req :: reqs) (.ok 0 :: rs) c c'

section Runs

variable {reqs mid : List IoRequest} {rs : List (Kern Int)} {w q : IoRequest} {c c' : Contents}
  {disk : Disk} {s : System} {log : List Access} {o : Option Nat} {i l : Nat}

/-- A fault may spare the sector it could cost. -/
theorem Served.of_none (h : Served none reqs rs c c') (o : Option Nat) : Served o reqs rs c c' := by
  generalize hnone : (none : Option Nat) = p at h
  induction h with
  | nil => exact .nil o _
  | refuses hreq _ ih => exact .refuses hreq (ih hnone)
  | fails hreq hn hloses hlast h =>
    subst hnone
    exact .fails hreq hn hloses.of_none hlast h
  | halts e hn hloses =>
    subst hnone
    exact .halts e hn hloses.of_none
  | serves hreq hloses h =>
    subst hnone
    exact .serves hreq hloses.of_none h

theorem Served.of_doomed {fuel : Nat} (h : Served (doomed disk fuel o log) reqs rs c c') :
    Served o reqs rs c c' := by
  unfold doomed at h
  split at h
  · exact h.of_none o
  · exact h

/-- **Every run of requests is served.** To a drive at rest, with requests for one sector or more:
whatever the drive shows when, it understands every access, and what is in memory and on the disk
afterwards is what the answers say. It is at rest again if all calls returned. -/
theorem requests_served (h : Complies disk s log) (hs : s.drive.job = .idle) (valid fuel : Nat)
    (reqs : List IoRequest) (hreqs : ∀ req ∈ reqs, req.nsecs ≠ 0) :
    ∃ new s', (ideRequests disk valid fuel reqs log).2 = log ++ new ∧ busRun s new = some s' ∧
      Served (doomed disk fuel s.drive.unsettled log) reqs (ideRequests disk valid fuel reqs log).1
        s.contents s'.contents ∧
      ((∀ r ∈ (ideRequests disk valid fuel reqs log).1, ∃ v, r = .ok v) → s'.drive.job = .idle) := by
  induction reqs generalizing s log with
  | nil => exact ⟨[], s, by rw [List.append_nil]; rfl, rfl, .nil _ _, fun _ => hs⟩
  | cons req reqs ih =>
    obtain ⟨r, new, s₁, heq, hbus, hend⟩ := ideRequest_bus h hs valid fuel req
    have hne := hreqs req List.mem_cons_self
    -- The requests after one that returned.
    have hrest (hidle : s₁.drive.job = .idle) :=
      ih (h.after hbus) hidle fun q hq => hreqs q (List.mem_cons_of_mem _ hq)
    rw [ideRequests, heq]
    cases hend with
    | halts e hn hloses hmoved =>
      refine ⟨new, s₁, rfl, hbus, ?_, fun hall => ?_⟩
      · rw [hmoved]
        exact .halts e (hn.elim id fun h => h ▸ Nat.pos_of_ne_zero hne) hloses
      · obtain ⟨v, hv⟩ := hall _ List.mem_cons_self
        cases hv
    | refuses hreq =>
      obtain ⟨new', s₂, heq', hbus', hserved, hidle⟩ := hrest hs
      rw [List.append_nil] at heq' hserved hidle ⊢
      exact ⟨new', s₂, heq', hbus', .refuses hreq hserved, fun hall =>
        hidle fun r hr => hall r (List.mem_cons_of_mem _ hr)⟩
    | fails hreq hn hloses hlast hjob hnone =>
      obtain ⟨new', s₂, heq', hbus', hserved, hidle⟩ := hrest hjob
      refine ⟨new ++ new', s₂, heq'.trans (List.append_assoc ..), ?_, .fails hreq hn hloses hlast ?_,
        fun hall => hidle fun r hr => hall r (List.mem_cons_of_mem _ hr)⟩
      · rw [busRun_append hbus, hbus']
      · exact hnone ▸ hserved.of_doomed
    | serves hreq hloses hmoved hlast hjob =>
      obtain ⟨new', s₂, heq', hbus', hserved, hidle⟩ := hrest (hjob.2 hne)
      refine ⟨new ++ new', s₂, heq'.trans (List.append_assoc ..), ?_, .serves hreq hloses ?_,
        fun hall => hidle fun r hr => hall r (List.mem_cons_of_mem _ hr)⟩
      · rw [busRun_append hbus, hbus']
      · exact hmoved ▸ hlast ▸ hserved.of_doomed

/-- A sector is written and read to another place; the drive is always ready. -/
theorem requests_served_two :
    let reqs : List IoRequest := [⟨ioWrite, 5, 1, 0x1000, 512⟩, ⟨ioRead, 5, 1, 0x2000, 512⟩]
    let disk := driveStatus smallSystem
    let answers := ideRequests disk 1 1 reqs []
    ∃ new s', answers.2 = [] ++ new ∧ busRun smallSystem new = some s' ∧
      Served (doomed disk 1 none []) reqs answers.1 smallSystem.contents s'.contents ∧
      ((∀ r ∈ answers.1, ∃ v, r = .ok v) → s'.drive.job = .idle) :=
  requests_served (driveStatus_complies _) rfl 1 1 _ (by decide)

/-- A request writes to sector `l`. -/
def IoRequest.Writes (req : IoRequest) (l : Nat) : Prop :=
  req.ioType = ioWrite ∧ req.secno ≤ l ∧ l < req.secno + req.nsecs

theorem done_bytes (h : ¬ q.Writes l) {n : Nat} (hn : n ≤ q.nsecs) (hi : i / sectorBytes = l) :
    (q.done n c).bytes i = c.bytes i := by
  by_cases hread : q.ioType = ioRead
  · rw [done_read hread]
    rfl
  by_cases hwrite : q.ioType = ioWrite
  · rw [done_write hwrite]
    refine put_of_notMem ?_
    have hl : ¬ (q.secno ≤ l ∧ l < q.secno + q.nsecs) := fun hl => h ⟨hwrite, hl⟩
    simp only [sectorBytes] at hi ⊢
    omega
  · rw [IoRequest.done, IoRequest.direction, if_neg hread, if_neg hwrite]

theorem last_write (hw : q.ioType = ioWrite) {n : Nat} (hn : n ≠ 0) :
    q.last n = some (q.secno + n - 1) := by
  have hdir : q.direction = some .toDisk := by
    rw [IoRequest.direction, hw]
    rfl
  rw [IoRequest.last, hdir]
  exact if_pos ⟨rfl, hn⟩

theorem last_other (hw : q.ioType ≠ ioWrite) (n : Nat) : q.last n = none := by
  unfold IoRequest.last IoRequest.direction
  by_cases hread : q.ioType = ioRead
  · rw [if_pos hread]
    rfl
  · rw [if_neg hread, if_neg hw]

/-- The sector that a request has written last is one that it writes to. -/
theorem last_writes {n : Nat} (hn : n ≤ q.nsecs) (hl : l ∈ q.last n) : q.Writes l := by
  by_cases hw : q.ioType = ioWrite
  case neg =>
    rw [last_other hw] at hl
    cases hl
  by_cases hzero : n = 0
  · subst hzero
    rw [IoRequest.last, IoRequest.direction, hw] at hl
    cases hl
  · rw [last_write hw hzero] at hl
    obtain rfl := Option.some.inj hl
    refine ⟨hw, ?_, ?_⟩ <;> omega

/-- **A sector that no request writes to keeps its bytes**, however the requests end, unless it was the
last to be written before. -/
theorem Served.keeps (h : Served o reqs rs c c') (ho : l ∉ o) (hreqs : ∀ q ∈ reqs, ¬ q.Writes l)
    (hi : i / sectorBytes = l) : c'.bytes i = c.bytes i := by
  subst hi
  induction h with
  | nil => rfl
  | refuses _ _ ih => exact ih ho fun q hq => hreqs q (List.mem_cons_of_mem _ hq)
  | fails _ hn hloses hlast _ ih =>
    have hreq := hreqs _ List.mem_cons_self
    rw [ih nofun fun q hq => hreqs q (List.mem_cons_of_mem _ hq),
      hlast.bytes i fun h => hreq (last_writes hn.le h), done_bytes hreq hn.le rfl, hloses.bytes i ho]
  | halts _ hn hloses =>
    rw [done_bytes (hreqs _ List.mem_cons_self) hn.le rfl, hloses.bytes i ho]
  | serves _ hloses _ ih =>
    have hreq := hreqs _ List.mem_cons_self
    rw [ih (fun h => hreq (last_writes le_rfl h)) fun q hq => hreqs q (List.mem_cons_of_mem _ hq),
      done_bytes hreq le_rfl rfl, hloses.bytes i ho]

/-- **A run in two parts**: what a fault can still cost in between is what it could cost at first, or a
sector that a request of the first part writes to. -/
theorem Served.split {qs : List IoRequest} {rs' : List (Kern Int)}
    (h : Served o (reqs ++ qs) (rs ++ rs') c c') (hlen : rs.length = reqs.length)
    (hrs : rs' ≠ []) :
    ∃ p c₁, Served o reqs rs c c₁ ∧ Served p qs rs' c₁ c' ∧
      ∀ l ∈ p, l ∈ o ∨ ∃ q ∈ reqs, q.Writes l := by
  induction reqs generalizing o rs c with
  | nil =>
    obtain rfl : rs = [] := List.eq_nil_of_length_eq_zero hlen
    exact ⟨o, c, .nil o c, h, fun l hl => .inl hl⟩
  | cons req reqs ih =>
    cases rs with
    | nil => cases hlen
    | cons r rs =>
      have hlen' : rs.length = reqs.length := Nat.succ.inj hlen
      rw [List.cons_append, List.cons_append] at h
      generalize hr : rs ++ rs' = answers at h
      cases h with
      | refuses hreq h =>
        obtain ⟨p, c₁, h₁, h₂, hp⟩ := ih (hr ▸ h) hlen'
        refine ⟨p, c₁, .refuses hreq h₁, h₂, fun l hl => (hp l hl).imp_right ?_⟩
        rintro ⟨q, hq, hw⟩
        exact ⟨q, List.mem_cons_of_mem _ hq, hw⟩
      | fails hreq hn hloses hlast h =>
        obtain ⟨p, c₁, h₁, h₂, hp⟩ := ih (hr ▸ h) hlen'
        refine ⟨p, c₁, .fails hreq hn hloses hlast h₁, h₂, fun l hl => .inr ?_⟩
        obtain ⟨q, hq, hw⟩ := (hp l hl).resolve_left nofun
        exact ⟨q, List.mem_cons_of_mem _ hq, hw⟩
      | halts e hn hloses => exact absurd (List.append_eq_nil_iff.1 hr).2 hrs
      | serves hreq hloses h =>
        obtain ⟨p, c₁, h₁, h₂, hp⟩ := ih (hr ▸ h) hlen'
        refine ⟨p, c₁, .serves hreq hloses h₁, h₂, fun l hl => .inr ?_⟩
        obtain hl | ⟨q, hq, hw⟩ := hp l hl
        · exact ⟨req, List.mem_cons_self, last_writes le_rfl hl⟩
        · exact ⟨q, List.mem_cons_of_mem _ hq, hw⟩

/-- The last request reads, and nothing before it has written to sector `l`, one of its sectors. -/
theorem Served.reads (h : Served o (reqs ++ [q]) (rs ++ [.ok 0]) c c')
    (hlen : rs.length = reqs.length) (hq : q.ioType = ioRead)
    (ho : l ∉ o) (hreqs : ∀ p ∈ reqs, ¬ p.Writes l) (hi : i < sectorBytes * q.nsecs)
    (hl : q.secno + i / sectorBytes = l) :
    loadAt c'.mem (BitVec.ofNat 32 q.buffer) i = c.bytes (sectorBytes * q.secno + i) := by
  obtain ⟨p, c₁, h₁, h₂, hp⟩ := h.split hlen (List.cons_ne_nil _ _)
  have hsector : (sectorBytes * q.secno + i) / sectorBytes = l := by
    rw [Nat.mul_add_div (by decide), hl]
  have hspared : l ∉ p := by
    intro hl
    obtain hl | ⟨p, hp, hw⟩ := hp l hl
    · exact ho hl
    · exact hreqs p hp hw
  cases h₂ with
  | serves hreq hloses h₃ =>
    cases h₃
    rename_i c₂
    have hsize : sectorBytes * q.nsecs ≤ 2 ^ 32 :=
      (Nat.mul_le_mul_left _ hreq.nsecs).trans (by decide)
    rw [← h₁.keeps ho hreqs hsector, ← hloses.bytes _ (hsector.symm ▸ hspared), done_read hq]
    exact loadAt_storeAt (f := fun i => c₂.bytes (sectorBytes * q.secno + i)) hi hsize

/-- The sectors of a request that writes are not those of `w`. -/
def Spares (w q : IoRequest) : Prop :=
  q.ioType = ioWrite → q.secno + q.nsecs ≤ w.secno ∨ w.secno + w.nsecs ≤ q.secno

theorem Spares.not_writes (h : Spares w q) (hi : i < sectorBytes * w.nsecs) :
    ¬ q.Writes (w.secno + i / sectorBytes) := by
  rintro ⟨hw, hge, hlt⟩
  have hsector : i / sectorBytes < w.nsecs := Nat.div_lt_of_lt_mul hi
  generalize i / sectorBytes = k at hge hlt hsector
  obtain h | h := h hw <;> omega

/-- **What was written is what is read**: if the first request writes, the last one reads the same
sectors, and no request in between writes to them, then the buffer read to ends up with what the
buffer written from held at first. For the last sector the status after the write must have shown no
error, which the code does not look for. -/
theorem written_read_back {valid fuel : Nat} (h : Complies disk s log) (hs : s.drive.job = .idle)
    (hne : ∀ req ∈ w :: (mid ++ [q]), req.nsecs ≠ 0)
    (hanswers : (ideRequests disk valid fuel (w :: (mid ++ [q])) log).1 = .ok 0 :: (rs ++ [.ok 0]))
    (hlen : rs.length = mid.length) (hw : w.ioType = ioWrite) (hq : q.ioType = ioRead)
    (hsecno : q.secno = w.secno) (hnsecs : q.nsecs = w.nsecs) (hmid : ∀ p ∈ mid, Spares w p) :
    ∃ new s', (ideRequests disk valid fuel (w :: (mid ++ [q])) log).2 = log ++ new ∧
      busRun s new = some s' ∧ ∀ i < sectsize * w.nsecs, i < sectsize * (w.nsecs - 1) ∨
          (ideWaitReady disk iobase true fuel (ideRequest disk valid fuel w log).2).1 = .ok 0 →
        loadAt s'.mem (BitVec.ofNat 32 q.buffer) i = loadAt s.mem (BitVec.ofNat 32 w.buffer) i := by
  obtain ⟨r, new, s₁, heq, hbus, hend⟩ := ideRequest_bus h hs valid fuel w
  have hwne := hne w List.mem_cons_self
  rw [ideRequests, heq] at hanswers ⊢
  cases hend with
  | halts e hn hloses hmoved => cases hanswers
  | refuses hreq => cases hanswers
  | fails hreq hn hloses hlast hjob hnone => cases hanswers
  | serves hreq hloses hmoved hlast hjob =>
    obtain ⟨new', s₂, heq', hbus', hserved, -⟩ := requests_served (h.after hbus) (hjob.2 hwne) valid
      fuel (mid ++ [q]) fun p hp => hne p (List.mem_cons_of_mem _ hp)
    have hrest : (ideRequests disk valid fuel (mid ++ [q]) (log ++ new)).1 = rs ++ [.ok 0] :=
      (List.cons.inj hanswers).2
    refine ⟨new ++ new', s₂, heq'.trans (List.append_assoc ..), ?_, fun i hi hfine => ?_⟩
    · rw [busRun_append hbus, hbus']
    rw [hrest, hmoved] at hserved
    have hspared : w.secno + i / sectorBytes ∉ doomed disk fuel s₁.drive.unsettled (log ++ new) := by
      unfold doomed
      split
      · nofun
      · rename_i herror
        have hlt : i / sectorBytes < w.nsecs - 1 :=
          Nat.div_lt_of_lt_mul (hfine.resolve_right herror)
        rw [hlast, last_write hw hwne]
        intro hl
        have hsector := Option.some.inj hl
        generalize i / sectorBytes = k at hsector hlt
        omega
    have hread := hserved.reads hlen hq hspared (fun p hp => (hmid p hp).not_writes hi)
      (hnsecs.symm ▸ hi) (by rw [hsecno])
    refine hread.trans ?_
    have hmem : s.mem = _ := hloses.mem.symm
    rw [done_write hw, hsecno, hmem]
    exact put_add hi

/-- In between, another sector is written. -/
theorem written_read_back_two :
    let w : IoRequest := ⟨ioWrite, 5, 1, 0x1000, 512⟩
    let q : IoRequest := ⟨ioRead, 5, 1, 0x2000, 512⟩
    let mid : List IoRequest := [⟨ioWrite, 6, 1, 0x3000, 512⟩]
    let disk := driveStatus smallSystem
    ∃ new s', (ideRequests disk 1 1 (w :: (mid ++ [q])) []).2 = [] ++ new ∧
      busRun smallSystem new = some s' ∧ ∀ i < sectsize * w.nsecs, i < sectsize * (w.nsecs - 1) ∨
          (ideWaitReady disk iobase true 1 (ideRequest disk 1 1 w []).2).1 = .ok 0 →
        loadAt s'.mem (BitVec.ofNat 32 q.buffer) i =
          loadAt smallSystem.mem (BitVec.ofNat 32 w.buffer) i := by
  intro w q mid disk
  have hmid : ∀ p ∈ mid, Spares w p := by
    intro p hp _
    obtain rfl := List.mem_singleton.1 hp
    exact .inr (by decide)
  have hanswers : (ideRequests disk 1 1 (w :: (mid ++ [q])) []).1 =
      .ok 0 :: ([.ok 0] ++ [.ok 0]) := by decide
  exact written_read_back (driveStatus_complies _) rfl (by decide) hanswers rfl rfl rfl rfl rfl hmid

end Runs

end Hurlex.Ide
