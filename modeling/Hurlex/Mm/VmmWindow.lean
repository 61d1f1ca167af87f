import Hurlex.Mm.VmmBoot

/-!
# Page tables reached through the current directory

`map` and `unmap` (`arch/i386/mm/vmm.c`, lines 54 to 90) with paging on; `get_mapping` (lines 92 to
112) is `getMappingAt`. Every access to the directory `pgd_now` and to a page table goes to
`KERNBASE + frame`, and the MMU takes it through the directory that is current (`cr3`). `none` is a
page fault. The store to a page table can itself change where these accesses lead, when the word it
writes is the one through which the current directory shows the directory or one of its tables. The
`invlpg` behind the store is left out: no access of the model remembers a translation.

* `Shown`: the address of a page leads to the page. `Reached`: the directory and its tables are
  shown. There the code does what it does on the tables where they lie (`Reached.getMappingAt_eq`,
  `Reached.mapAt_old`, `Reached.mapAt_new`), and `Reached.set` and `Reached.set_new` say when it stays
  so.
-/

namespace Hurlex.Vmm

open Lib

/-! ## `map` and `unmap` -/

/-- `map`, with paging on; `page` is what `alloc_pages(1)` returns, if it is asked. -/
def mapAt (m : Phys) (cr3 pgdNow page va pa flags : Word) : Option Phys := do
  let e ← kload m cr3 (pgdNow + 4 * (pgdIndex va).setWidth 32)
  let pte := e &&& pageMask
  if pte = 0 then
    let pte := page
    let m ← kstore m cr3 (pgdNow + 4 * (pgdIndex va).setWidth 32)
      (pte ||| pagePresent ||| pageWrite)
    kstore m cr3 (paToKa pte + 4 * (pteIndex va).setWidth 32) ((pa &&& pageMask) ||| flags)
  else
    kstore m cr3 (paToKa pte + 4 * (pteIndex va).setWidth 32) ((pa &&& pageMask) ||| flags)

/-- `unmap`, with paging on. -/
def unmapAt (m : Phys) (cr3 pgdNow va : Word) : Option Phys := do
  let e ← kload m cr3 (pgdNow + 4 * (pgdIndex va).setWidth 32)
  let pte := e &&& pageMask
  if pte = 0 then return m
  else kstore m cr3 (paToKa pte + 4 * (pteIndex va).setWidth 32) 0

/-! ## Words of pages -/

/-- Word `j` of the page `f` becomes `w`. -/
def Phys.set (m : Phys) (f : Word) (j : Index) (w : Word) : Phys :=
  Function.update m f (Function.update (m f) j w)

section Words

variable {m : Phys} {cr3 d f f' g x page va va' pa flags w : Word} {i j k : Index}
  {p : Option Word}

theorem Phys.set_self : m.set f j w f j = w := by
  rw [Phys.set, Function.update_self, Function.update_self]

theorem Phys.set_of_page (h : f' ≠ f) : m.set f j w f' = m f' := Function.update_of_ne h ..

theorem Phys.set_of_index (h : k ≠ j) : m.set f j w f' k = m f' k := by
  unfold Phys.set
  by_cases hf : f' = f
  · subst hf
    rw [Function.update_self, Function.update_of_ne h]
  · rw [Function.update_of_ne hf]

theorem Phys.set_apply : m.set f j w f' k = if f' = f ∧ k = j then w else m f' k := by
  by_cases hf : f' = f
  · subst hf
    by_cases hk : k = j
    · subst hk
      rw [if_pos ⟨rfl, rfl⟩, Phys.set_self]
    · rw [if_neg fun h => hk h.2, Phys.set_of_index hk]
  · rw [if_neg fun h => hf h.1, Phys.set_of_page hf]

theorem store_elem (hf : f &&& pageMask = f) (j : Index) (w : Word) :
    m.store (f + 4 * j.setWidth 32) w = m.set f j w := by
  have hal : 2 ^ 2 ∣ (f + 4 * j.setWidth 32).toNat := by
    rw [toNat_wordOf hf, wordAddr]
    rw [page_aligned_iff] at hf
    omega
  obtain ⟨h1, h2⟩ := (wordAddr_eq_iff hf hal).1 (toNat_wordOf hf j).symm
  rw [Phys.store, ← h1, ← h2, Phys.set]

/-- An element of a page is in the page. -/
theorem elem_page (hf : f &&& pageMask = f) (j : Index) :
    (f + 4 * j.setWidth 32) &&& pageMask = f ∧
      (f + 4 * j.setWidth 32) &&& 0xFFF = 4 * j.setWidth 32 := by
  have hw := toNat_wordOf hf j
  have hj := j.isLt
  have h4 : (4 * j.setWidth 32 : Word).toNat = 2 ^ 2 * j.toNat := by
    rw [BitVec.toNat_mul, BitVec.toNat_setWidth, show (4 : Word).toNat = 2 ^ 2 from rfl]
    omega
  rw [page_aligned_iff] at hf
  rw [wordAddr] at hw
  constructor
  · rw [← BitVec.toNat_inj, toNat_and_pageMask, hw]
    omega
  · rw [← BitVec.toNat_inj, toNat_offset, hw, h4]
    omega

theorem paToKa_aligned (hf : f &&& pageMask = f) : paToKa f &&& pageMask = paToKa f := by
  rw [page_aligned_iff] at hf ⊢
  rw [paToKa, BitVec.toNat_add, show kernbase.toNat = 2 ^ 12 * 786432 from rfl]
  omega

theorem walk_congr {s : Space} (h : va' &&& pageMask = va &&& pageMask) :
    walk s va' = walk s va := by
  obtain ⟨hd, ht⟩ := page_eq_iff.1 h
  unfold walk tableEntry
  rw [hd, ht]

/-- The address of the page `f` in the linear mapping leads to the page `g`. -/
structure Leads (m : Phys) (cr3 f g : Word) : Prop where
  aligned : f &&& pageMask = f
  walk : walk (spaceAt m cr3) (paToKa f) = some g

theorem walk_aligned {s : Space} (h : walk s va = some g) : g &&& pageMask = g := by
  unfold Vmm.walk at h
  split at h
  · cases h
  · split at h
    · cases h
    · rw [← Option.some.inj h, BitVec.and_assoc, BitVec.and_self]

theorem Leads.translate (h : Leads m cr3 f g) (j : Index) :
    translate m cr3 (paToKa f + 4 * j.setWidth 32) = some (g + 4 * j.setWidth 32) := by
  obtain ⟨hpage, hoff⟩ := elem_page (paToKa_aligned h.aligned) j
  have hcongr : (paToKa f + 4 * j.setWidth 32) &&& pageMask = paToKa f &&& pageMask :=
    hpage.trans (paToKa_aligned h.aligned).symm
  rw [Vmm.translate, walk_congr hcongr, h.walk, Option.map_some, hoff]

theorem Leads.load (h : Leads m cr3 f g) (j : Index) :
    kload m cr3 (paToKa f + 4 * j.setWidth 32) = some (m g j) := by
  rw [kload, h.translate, Option.map_some, load_elem _ (walk_aligned h.walk)]

theorem Leads.store (h : Leads m cr3 f g) (j : Index) (w : Word) :
    kstore m cr3 (paToKa f + 4 * j.setWidth 32) w = some (m.set g j w) := by
  rw [kstore, h.translate, Option.map_some, store_elem (walk_aligned h.walk)]

theorem dir_of_frame (h : m d i &&& pageMask ≠ 0) :
    (spaceAt m d).tables.dir i = some (m d i &&& pageMask) := dir_of_ne h

/-- **`get_mapping` reads what the addresses of the directory and of its tables lead to.** -/
theorem getMappingAt_through (ω : Word → Word) (hd : Leads m cr3 d g)
    (ht : ∀ i f, (spaceAt m g).tables.dir i = some f → Leads m cr3 f (ω f)) (va : Word)
    (p : Option Word) :
    getMappingAt m cr3 (paToKa d) va p = some (getMapping ⟨m g, fun f => m (ω f)⟩ va p) := by
  unfold getMappingAt getMapping
  simp only [hd.load, Option.bind_eq_bind, Option.bind_some]
  by_cases h0 : m g (pgdIndex va) &&& pageMask = 0
  · rw [if_pos h0, if_pos h0]
    rfl
  · rw [if_neg h0, if_neg h0, (ht _ _ (dir_of_frame h0)).load, Option.bind_some]
    simp only [Space.pte, kaToPa_paToKa]
    split
    · rfl
    · rfl

/-! ## Pages that are shown -/

/-- The address of the page `f` in the linear mapping leads to `f`, through a page table that is one
for the code too: its frame is not 0. -/
structure Shown (m : Phys) (cr3 f : Word) : Prop extends Leads m cr3 f f where
  table : m cr3 (pgdIndex (paToKa f)) &&& pageMask ≠ 0

/-- The table word that shows the page `x` is word `j` of the page `f`. -/
def IsWindow (m : Phys) (cr3 x f : Word) (j : Index) : Prop :=
  m cr3 (pgdIndex (paToKa x)) &&& pageMask = f ∧ pteIndex (paToKa x) = j

theorem walk_spaceAt (m : Phys) (cr3 va : Word) : walk (spaceAt m cr3) va =
    if m cr3 (pgdIndex va) &&& pagePresent = 0 then none
    else if m (m cr3 (pgdIndex va) &&& pageMask) (pteIndex va) &&& pagePresent = 0 then none
    else some (m (m cr3 (pgdIndex va) &&& pageMask) (pteIndex va) &&& pageMask) := rfl

/-- A walk that finds a frame. -/
theorem walk_eq_some : walk (spaceAt m cr3) va = some g ↔
    m cr3 (pgdIndex va) &&& pagePresent ≠ 0 ∧
      m (m cr3 (pgdIndex va) &&& pageMask) (pteIndex va) &&& pagePresent ≠ 0 ∧
      m (m cr3 (pgdIndex va) &&& pageMask) (pteIndex va) &&& pageMask = g := by
  rw [walk_spaceAt]
  split
  · next h => exact iff_of_false (Option.some_ne_none g).symm fun hc => hc.1 h
  · next h =>
    split
    · next h' => exact iff_of_false (Option.some_ne_none g).symm fun hc => hc.2.1 h'
    · next h' =>
      rw [Option.some.injEq]
      exact ⟨fun hc => ⟨h, h', hc⟩, fun hc => hc.2.2⟩

/-- A store elsewhere leaves a page shown. -/
theorem Shown.set (h : Shown m cr3 x) (hdir : f = cr3 → pgdIndex (paToKa x) ≠ j)
    (hword : ¬ IsWindow m cr3 x f j) : Shown (m.set f j w) cr3 x := by
  obtain ⟨h1, h2, h3⟩ := walk_eq_some.1 h.walk
  have hd : m.set f j w cr3 (pgdIndex (paToKa x)) = m cr3 (pgdIndex (paToKa x)) := by
    rw [Phys.set_apply, if_neg fun hc => hdir hc.1.symm hc.2]
  have ht : m.set f j w (m cr3 (pgdIndex (paToKa x)) &&& pageMask) (pteIndex (paToKa x)) =
      m (m cr3 (pgdIndex (paToKa x)) &&& pageMask) (pteIndex (paToKa x)) := by
    rw [Phys.set_apply]
    exact if_neg hword
  refine ⟨⟨h.aligned, walk_eq_some.2 ?_⟩, ?_⟩
  · rw [hd, ht]
    exact ⟨h1, h2, h3⟩
  · rw [hd]
    exact h.table

/-- A store to the word that shows the page. -/
theorem Shown.walk_set (h : Shown m cr3 x) (hf : f ≠ cr3) (hword : IsWindow m cr3 x f j) :
    walk (spaceAt (m.set f j w) cr3) (paToKa x) =
      if w &&& pagePresent = 0 then none else some (w &&& pageMask) := by
  have hd : m.set f j w cr3 = m cr3 := Phys.set_of_page hf.symm
  have ht : m.set f j w (m cr3 (pgdIndex (paToKa x)) &&& pageMask) (pteIndex (paToKa x)) = w := by
    rw [hword.1, hword.2, Phys.set_self]
  rw [walk_spaceAt, hd, ht, if_neg (walk_eq_some.1 h.walk).1]

/-- The directory `d` and its page tables are shown, and neither it nor the current directory is
used as a page table. -/
structure Reached (m : Phys) (cr3 d : Word) : Prop where
  dir : Shown m cr3 d
  table : ∀ i f, (spaceAt m d).tables.dir i = some f → Shown m cr3 f
  not_own : ∀ i, m d i &&& pageMask ≠ d
  not_current : ∀ i, m d i &&& pageMask ≠ cr3
  not_theirs : ∀ i, m cr3 i &&& pageMask ≠ d

/-- **Where everything is shown, `get_mapping` reads the tables where they lie.** -/
theorem Reached.getMappingAt_eq (h : Reached m cr3 d) (va : Word) (p : Option Word) :
    getMappingAt m cr3 (paToKa d) va p = some (getMapping (spaceAt m d) va p) :=
  getMappingAt_through id h.dir.toLeads (fun i f hf => (h.table i f hf).toLeads) va p

/-- `page` can become a page table of `d`: it is shown, and no directory, no page table and in no
use as one. -/
structure SparePage (m : Phys) (cr3 d page : Word) : Prop extends Spare (spaceAt m d) page where
  shown : Shown m cr3 page
  unused_current : ∀ i, m cr3 i &&& pageMask ≠ page
  ne_dir : page ≠ d
  ne_current : page ≠ cr3

/-- `map` with a page table that is there. -/
theorem Reached.mapAt_old (h : Reached m cr3 d) (h0 : m d (pgdIndex va) &&& pageMask ≠ 0) :
    mapAt m cr3 (paToKa d) page va pa flags =
      some (m.set (m d (pgdIndex va) &&& pageMask) (pteIndex va) ((pa &&& pageMask) ||| flags)) := by
  unfold mapAt
  simp only [h.dir.load, Option.bind_eq_bind, Option.bind_some]
  rw [if_neg h0, (h.table _ _ (dir_of_frame h0)).store]

/-- The new entry of the directory is not one that shows a page. -/
theorem Reached.shown_entry (h : Reached m cr3 d) (h0 : m d i &&& pageMask = 0)
    (hx : Shown m cr3 x) : Shown (m.set d i w) cr3 x := by
  refine hx.set (fun hd hi => ?_) fun hc => h.not_theirs _ hc.1
  subst hd
  exact hx.table (hi ▸ h0)

/-- `map` with a new page table. -/
theorem Reached.mapAt_new (h : Reached m cr3 d) (h0 : m d (pgdIndex va) &&& pageMask = 0)
    (hp : SparePage m cr3 d page) :
    mapAt m cr3 (paToKa d) page va pa flags =
      some ((m.set d (pgdIndex va) (page ||| pagePresent ||| pageWrite)).set page (pteIndex va)
        ((pa &&& pageMask) ||| flags)) := by
  have hpage := h.shown_entry (w := page ||| pagePresent ||| pageWrite) h0 hp.shown
  unfold mapAt
  simp only [h.dir.load, h.dir.store, Option.bind_eq_bind, Option.bind_some]
  rw [if_pos h0, hpage.store]

/-- `unmap`. -/
theorem Reached.unmapAt_eq (h : Reached m cr3 d) : unmapAt m cr3 (paToKa d) va =
    some (if m d (pgdIndex va) &&& pageMask = 0 then m
      else m.set (m d (pgdIndex va) &&& pageMask) (pteIndex va) 0) := by
  unfold unmapAt
  simp only [h.dir.load, Option.bind_eq_bind, Option.bind_some]
  by_cases h0 : m d (pgdIndex va) &&& pageMask = 0
  · rw [if_pos h0, if_pos h0]
    rfl
  · rw [if_neg h0, if_neg h0, (h.table _ _ (dir_of_frame h0)).store]

/-! ## What stays reached -/

/-- A store to a table of the directory, as it looks in the directory's own space. -/
theorem Reached.spaceAt_set (h : Reached m cr3 d) :
    spaceAt (m.set (m d i &&& pageMask) j w) d =
      (spaceAt m d).setPte (paToKa (m d i &&& pageMask)) j w := by
  have hd : m.set (m d i &&& pageMask) j w d = m d := Phys.set_of_page (h.not_own i).symm
  unfold spaceAt Space.setPte
  rw [hd, kaToPa_paToKa]
  rfl

/-- A store to a table that shows neither the directory nor a table, or shows what it showed. -/
theorem Reached.set (h : Reached m cr3 d)
    (hkeep : ∀ x, (x = d ∨ ∃ k, (spaceAt m d).tables.dir k = some x) →
      IsWindow m cr3 x (m d i &&& pageMask) j → w &&& pagePresent ≠ 0 ∧ w &&& pageMask = x) :
    Reached (m.set (m d i &&& pageMask) j w) cr3 d := by
  have hd : m.set (m d i &&& pageMask) j w d = m d := Phys.set_of_page (h.not_own i).symm
  have hc : m.set (m d i &&& pageMask) j w cr3 = m cr3 :=
    Phys.set_of_page (h.not_current i).symm
  have keep : ∀ x, (x = d ∨ ∃ k, (spaceAt m d).tables.dir k = some x) → Shown m cr3 x →
      Shown (m.set (m d i &&& pageMask) j w) cr3 x := by
    intro x hx hshown
    by_cases hw : IsWindow m cr3 x (m d i &&& pageMask) j
    · obtain ⟨hp, hx'⟩ := hkeep x hx hw
      refine ⟨⟨hshown.aligned, ?_⟩, by rw [hc]; exact hshown.table⟩
      rw [hshown.walk_set (h.not_current i) hw, if_neg hp, hx']
    · exact hshown.set (fun hf => absurd hf (h.not_current i)) hw
  refine ⟨keep d (.inl rfl) h.dir, fun k f hf => ?_, ?_, ?_, ?_⟩
  · have hf' : (spaceAt m d).tables.dir k = some f := by
      rw [← hf]
      unfold spaceAt Space.tables
      rw [hd]
    exact keep f (.inr ⟨k, hf'⟩) (h.table k f hf')
  · rw [hd]
    exact h.not_own
  · rw [hd]
    exact h.not_current
  · rw [hc]
    exact h.not_theirs

/-- The directory with a new entry, and the page it names with its first word. -/
theorem Reached.set_new (h : Reached m cr3 d) (h0 : m d i &&& pageMask = 0)
    (hp : SparePage m cr3 d page) :
    Reached ((m.set d i (page ||| pagePresent ||| pageWrite)).set page j w) cr3 d := by
  -- what the directory and the current one hold afterwards
  have hd : (m.set d i (page ||| pagePresent ||| pageWrite)).set page j w d =
      Function.update (m d) i (page ||| pagePresent ||| pageWrite) := by
    rw [Phys.set_of_page hp.ne_dir.symm, Phys.set, Function.update_self]
  have hc : ∀ k, ((m.set d i (page ||| pagePresent ||| pageWrite)).set page j w cr3 k = m cr3 k) ∨
      (cr3 = d ∧ (m.set d i (page ||| pagePresent ||| pageWrite)).set page j w cr3 k =
        page ||| pagePresent ||| pageWrite) := by
    intro k
    rw [Phys.set_of_page hp.ne_current.symm, Phys.set_apply]
    split
    · next hk => exact .inr ⟨hk.1, rfl⟩
    · exact .inl rfl
  have keep : ∀ x, Shown m cr3 x →
      Shown ((m.set d i (page ||| pagePresent ||| pageWrite)).set page j w) cr3 x := by
    intro x hx
    have hx1 := h.shown_entry (w := page ||| pagePresent ||| pageWrite) h0 hx
    refine hx1.set (fun hf => absurd hf hp.ne_current) fun hw => ?_
    have hentry : m.set d i (page ||| pagePresent ||| pageWrite) cr3 (pgdIndex (paToKa x)) =
        m cr3 (pgdIndex (paToKa x)) := by
      rw [Phys.set_apply, if_neg]
      rintro ⟨rfl, hi⟩
      exact hx.table (hi ▸ h0)
    have hframe := hw.1
    rw [hentry] at hframe
    exact hp.unused_current _ hframe
  refine ⟨keep d h.dir, fun k f hf => ?_, fun k => ?_, fun k => ?_, fun k => ?_⟩
  · rw [dir_eq_some] at hf
    obtain ⟨hf, hne⟩ := hf
    have hf : (m.set d i (page ||| pagePresent ||| pageWrite)).set page j w d k &&& pageMask = f :=
      hf
    rw [hd] at hf
    by_cases hk : k = i
    · rw [hk, Function.update_self, hp.entry] at hf
      exact hf ▸ keep page hp.shown
    · rw [Function.update_of_ne hk] at hf
      exact keep f (h.table k f (dir_eq_some.2 ⟨hf, hne⟩))
  · rw [hd]
    by_cases hk : k = i
    · rw [hk, Function.update_self, hp.entry]
      exact hp.ne_dir
    · rw [Function.update_of_ne hk]
      exact h.not_own k
  · rw [hd]
    by_cases hk : k = i
    · rw [hk, Function.update_self, hp.entry]
      exact hp.ne_current
    · rw [Function.update_of_ne hk]
      exact h.not_current k
  · rcases hc k with hk | ⟨-, hk⟩
    · rw [hk]
      exact h.not_theirs k
    · rw [hk, hp.entry]
      exact hp.ne_dir

/-- A new page table, as it looks in the directory's own space: there the directory's page, which is
no table, keeps what was in it. -/
theorem Reached.slot_set_new (h : Reached m cr3 d) (h0 : m d (pgdIndex va) &&& pageMask = 0)
    (hp : SparePage m cr3 d page) (va' : Word) :
    slot (spaceAt ((m.set d (pgdIndex va) (page ||| pagePresent ||| pageWrite)).set page
        (pteIndex va) ((pa &&& pageMask) ||| flags)) d) va' =
      slot (map (spaceAt m d) page va pa flags) va' := by
  have hmap : map (spaceAt m d) page va pa flags =
      ((spaceAt m d).setPgd (pgdIndex va) (page ||| pagePresent ||| pageWrite)).setPte (paToKa page)
        (pteIndex va) ((pa &&& pageMask) ||| flags) := if_pos h0
  rw [hmap]
  refine slot_frame ?_ (fun i f hf => ?_) va'
  · show (m.set d (pgdIndex va) (page ||| pagePresent ||| pageWrite)).set page (pteIndex va)
      ((pa &&& pageMask) ||| flags) d =
        Function.update (m d) (pgdIndex va) (page ||| pagePresent ||| pageWrite)
    rw [Phys.set_of_page hp.ne_dir.symm, Phys.set, Function.update_self]
  · have hfd : f ≠ d := by
      rintro rfl
      rw [dir_eq_some] at hf
      have hf : Function.update (m f) (pgdIndex va) (page ||| pagePresent ||| pageWrite) i &&&
        pageMask = f := hf.1
      by_cases hi : i = pgdIndex va
      · rw [hi, Function.update_self, hp.entry] at hf
        exact hp.ne_dir hf
      · rw [Function.update_of_ne hi] at hf
        exact h.not_own i hf
    simp only [spaceAt, Space.setPte, Space.setPgd, kaToPa_paToKa]
    by_cases hfp : f = page
    · subst hfp
      rw [Phys.set, Function.update_self, Function.update_self, Phys.set_of_page hfd]
    · rw [Phys.set_of_page hfp, Phys.set_of_page hfd, Function.update_of_ne hfp]

end Words

end Hurlex.Vmm
