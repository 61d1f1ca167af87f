import Hurlex.List
import Hurlex.Lib.LinkPath

/-!
# Moving, replacing, splicing and cutting (`include/lib/list.h`)

The rest of the header, as store sequences, and what each function does to the contents of the lists
it is given.
-/

namespace Hurlex

open Lib

variable {P : Type} [DecidableEq P]

/-- `list_add_tail`. -/
def listAddTail (L : Links P) (new head : P) : Links P := listAddBetween L new (L.prev head) head

/-- `list_replace`. -/
def listReplace (L : Links P) (old new : P) : Links P :=
  let L := L.setNext new (L.next old)
  let L := L.setPrev (L.next new) new
  let L := L.setPrev new (L.prev old)
  L.setNext (L.prev new) new

/-- `list_replace_init`. -/
def listReplaceInit (L : Links P) (old new : P) : Links P :=
  initListHead (listReplace L old new) old

/-- `list_del_init`. -/
def listDelInit (L : Links P) (entry : P) : Links P :=
  initListHead (listDelBetween L (L.prev entry) (L.next entry)) entry

/-- `list_move`. -/
def listMove (L : Links P) (list head : P) : Links P :=
  listAdd (listDelBetween L (L.prev list) (L.next list)) list head

/-- `list_move_tail`. -/
def listMoveTail (L : Links P) (list head : P) : Links P :=
  listAddTail (listDelBetween L (L.prev list) (L.next list)) list head

/-- `list_is_last`. -/
def listIsLast (L : Links P) (list head : P) : Bool := decide (L.next list = head)

/-- `list_empty_careful`. -/
def listEmptyCareful (L : Links P) (head : P) : Bool :=
  let next := L.next head
  decide (next = head) && decide (next = L.prev head)

/-- `list_is_singular`. -/
def listIsSingular (L : Links P) (head : P) : Bool :=
  !listEmpty L head && decide (L.next head = L.prev head)

/-- `__list_cut_position`. -/
def listCutPositionRaw (L : Links P) (list head entry : P) : Links P :=
  let newFirst := L.next entry
  let L := L.setNext list (L.next head)
  let L := L.setPrev (L.next list) list
  let L := L.setPrev list entry
  let L := L.setNext entry list
  let L := L.setNext head newFirst
  L.setPrev newFirst head

/-- `list_cut_position`. -/
def listCutPosition (L : Links P) (list head entry : P) : Links P :=
  if listEmpty L head then L
  else if listIsSingular L head && (decide (L.next head ≠ entry) && decide (head ≠ entry)) then L
  else if entry = head then initListHead L list
  else listCutPositionRaw L list head entry

/-- `__list_splice`. -/
def listSpliceRaw (L : Links P) (list prev next : P) : Links P :=
  let first := L.next list
  let last := L.prev list
  let L := L.setPrev first prev
  let L := L.setNext prev first
  let L := L.setNext last next
  L.setPrev next last

/-- `list_splice`. -/
def listSplice (L : Links P) (list head : P) : Links P :=
  if !listEmpty L list then listSpliceRaw L list head (L.next head) else L

/-- `list_splice_tail`. -/
def listSpliceTail (L : Links P) (list head : P) : Links P :=
  if !listEmpty L list then listSpliceRaw L list (L.prev head) head else L

/-- `list_splice_init`. -/
def listSpliceInit (L : Links P) (list head : P) : Links P :=
  if !listEmpty L list then initListHead (listSpliceRaw L list head (L.next head)) list else L

/-- `list_splice_tail_init`. -/
def listSpliceTailInit (L : Links P) (list head : P) : Links P :=
  if !listEmpty L list then initListHead (listSpliceRaw L list (L.prev head) head) list else L

/-! ## The stores as joins -/

variable {L : Links P} {h l x c : P} {xs ys : List P}

theorem listSpliceRaw_eq (L : Links P) (l p n : P) :
    listSpliceRaw L l p n = (L.bypass p (L.next l)).bypass (L.prev l) n := rfl

theorem listCutPositionRaw_eq (L : Links P) (l h c : P) :
    listCutPositionRaw L l h c = ((L.bypass l (L.next h)).bypass c l).bypass h (L.next c) := by
  unfold listCutPositionRaw
  simp only [Links.setNext_next, Function.update_self]
  rfl

/-- What is in front of `old` is read back after the first join. -/
theorem listReplace_eq (L : Links P) (old new : P) : listReplace L old new =
    (L.bypass new (L.next old)).bypass ((L.bypass new (L.next old)).prev old) new := by
  unfold listReplace
  simp only [Links.setNext_next, Links.setNext_prev, Links.setPrev_prev, Function.update_self]
  rfl

theorem bypass_prev_of_ne {a b : P} (hc : c ≠ b) : (L.bypass a b).prev c = L.prev c :=
  Function.update_of_ne hc ..

/-! ## Reading -/

omit [DecidableEq P] in
/-- The node behind the head, and the rest of the way round. -/
theorem first_rest (hr : LinkRing L h xs) : ∃ rest, xs ++ [h] = L.next h :: rest := by
  have hf := hr.next_head
  cases hxs : xs ++ [h] with
  | nil => simp at hxs
  | cons a rest =>
    rw [hxs] at hf
    exact ⟨rest, by rw [Option.some.inj hf]⟩

theorem listEmptyCareful_iff (hr : LinkRing L h xs) : listEmptyCareful L h = true ↔ xs = [] := by
  rw [← listEmpty_iff hr]
  simp only [listEmptyCareful, listEmpty, Bool.and_eq_true, decide_eq_true_iff]
  refine ⟨And.left, fun hn => ⟨hn, ?_⟩⟩
  have hnil : xs = [] := (listEmpty_iff hr).1 (decide_eq_true hn)
  subst hnil
  obtain ⟨h1, h2⟩ := LinkRing.nil_iff.1 hr
  rw [h1, h2]

theorem listIsLast_iff (hr : LinkRing L h (xs ++ c :: ys)) : listIsLast L c h = true ↔ ys = [] := by
  rw [listIsLast, decide_eq_true_iff]
  have hn := hr.next_mem
  cases ys with
  | nil => simpa using hn.symm
  | cons y ys =>
    have hc : y = L.next c := by simpa using hn
    have hy : y ≠ h := by
      rintro rfl
      exact (List.nodup_cons.1 hr.nodup).1 (by simp)
    simp [← hc, hy]

theorem listIsSingular_iff (hr : LinkRing L h xs) :
    listIsSingular L h = true ↔ ∃ x, xs = [x] := by
  rw [listIsSingular, Bool.and_eq_true, Bool.not_eq_true', decide_eq_true_iff]
  cases xs with
  | nil =>
    have he := (listEmpty_iff hr).2 rfl
    simp [he]
  | cons x xs =>
    have he : listEmpty L h = false :=
      Bool.eq_false_iff.2 fun h => absurd ((listEmpty_iff hr).1 h) (List.cons_ne_nil x xs)
    have hn : L.next h = x := by simpa using hr.next_head.symm
    have hp := hr.prev_head
    rw [he, hn]
    rcases List.eq_nil_or_concat xs with rfl | ⟨zs, z, rfl⟩
    · have : x = L.prev h := by simpa using hp
      simp [← this]
    · rw [List.concat_eq_append, ← List.cons_append, ← List.cons_append, List.getLast?_concat] at hp
      have hx : x ∉ zs ++ [z] := by
        have := (List.nodup_cons.1 (List.nodup_cons.1 hr.nodup).2).1
        rwa [List.concat_eq_append] at this
      have hz : x ≠ z := fun e => hx (by simp [e])
      rw [← Option.some.inj hp]
      simp [hz]

/-! ## What the functions do to the contents -/

theorem listAddTail_ring (hr : LinkRing L h xs) (hx : x ∉ h :: xs) :
    LinkRing (listAddTail L x h) h (xs ++ [x]) :=
  hr.insert_before hx

omit [DecidableEq P] in
/-- The way round from the first entry. -/
theorem round_nodup {n : P} {rest : List P} (hr : LinkRing L h xs) (hrest : xs ++ [h] = n :: rest) :
    (n :: rest).Nodup :=
  hrest ▸ List.nodup_append_comm.1 hr.nodup

/-- **A list put in front of another.** -/
theorem listSpliceRaw_ring (hr : LinkRing L h xs) (hl : LinkRing L l ys) (hne : ys ≠ [])
    (hd : ∀ y ∈ ys, y ∉ h :: xs) : LinkRing (listSpliceRaw L l h (L.next h)) h (ys ++ xs) := by
  obtain ⟨rest, hrest⟩ := first_rest hr
  have hround := round_nodup hr hrest
  obtain ⟨hhxs, hxs⟩ := List.nodup_cons.1 hr.nodup
  have hys := (List.nodup_cons.1 hl.nodup).2
  -- the list from its first entry `y` on, and up to its last entry `z`
  obtain ⟨y, ys', hy⟩ := List.exists_cons_of_ne_nil hne
  obtain ⟨zs, z, hz⟩ : ∃ zs z, ys = zs ++ [z] :=
    ⟨ys.dropLast, ys.getLast hne, (List.dropLast_append_getLast hne).symm⟩
  have hfirst : L.next l = y := by
    have h := hl.next_head
    rw [hy] at h
    exact (Option.some.inj h).symm
  have hlast : L.prev l = z := by
    have h := hl.prev_head
    rw [hz, ← List.cons_append, List.getLast?_concat] at h
    exact (Option.some.inj h).symm
  have hout : ∀ v ∈ ys, v ≠ h ∧ v ∉ xs := fun v hv =>
    ⟨fun e => hd v hv (e ▸ List.mem_cons_self), fun hm => hd v hv (List.mem_cons_of_mem h hm)⟩
  have hnmem : ∀ v ∈ L.next h :: rest, v ∉ ys := by
    intro v hv hvy
    rw [← hrest, List.mem_append, List.mem_singleton] at hv
    exact hv.elim (hout v hvy).2 (hout v hvy).1
  have hymem : y ∈ ys := hy ▸ List.mem_cons_self
  have hzmem : z ∈ ys := hz ▸ List.mem_append_right zs (List.mem_singleton_self z)
  rw [listSpliceRaw_eq, hfirst, hlast]
  -- the head and the list, then these and the way round
  have h1 : LinkPath (L.bypass h y) (h :: zs ++ [z]) := by
    rw [List.cons_append, ← hz, hy]
    refine LinkPath.join_cons (hy ▸ hl.path.1) (fun hm => ?_) (List.nodup_cons.1 (hy ▸ hys)).1
    exact (hout h (hy ▸ List.dropLast_subset _ hm)).1 rfl
  have h2 : LinkPath (L.bypass h y) (L.next h :: rest) := by
    refine (hrest ▸ hr.path.2 : LinkPath L (L.next h :: rest)).bypass ?_ fun hm => ?_
    · rw [← hrest, List.dropLast_concat]
      exact hhxs
    · exact hnmem y (List.mem_of_mem_tail hm) hymem
  have h3 := LinkPath.join h1 h2 ?_ ?_ ?_ (List.nodup_cons.1 hround).1
  · refine linkRing_iff.2 ⟨List.nodup_cons.2 ⟨?_, hys.append hxs fun v hv => (hout v hv).2⟩, ?_⟩
    · rw [List.mem_append, not_or]
      exact ⟨fun hm => (hout h hm).1 rfl, hhxs⟩
    · rw [List.append_assoc, hrest, hz]
      simpa using h3
  · rw [List.mem_cons, not_or]
    refine ⟨(hout z hzmem).1, fun hm => ?_⟩
    exact List.disjoint_of_nodup_append (hz ▸ hys) hm (List.mem_singleton_self z)
  · exact fun hm => hnmem _ List.mem_cons_self (hz ▸ hm)
  · exact fun hm => hnmem z (List.dropLast_subset _ hm) hzmem

theorem listSpliceRaw_tail_ring (hr : LinkRing L h xs) (hl : LinkRing L l ys) (hne : ys ≠ [])
    (hd : ∀ y ∈ ys, y ∉ h :: xs) : LinkRing (listSpliceRaw L l (L.prev h) h) h (xs ++ ys) := by
  rcases List.eq_nil_or_concat xs with rfl | ⟨zs, p, rfl⟩
  · obtain ⟨hn, hp⟩ := LinkRing.nil_iff.1 hr
    have h := listSpliceRaw_ring hr hl hne hd
    rw [hn, List.append_nil] at h
    rwa [hp]
  · -- read the ring from `p`, the entry in front of the head
    rw [List.concat_eq_append] at hr hd ⊢
    have hp : L.prev h = p := by
      have hprev := hr.prev_head
      rw [← List.cons_append, List.getLast?_concat] at hprev
      exact (Option.some.inj hprev).symm
    have hrot : LinkRing L p (h :: zs) := by simpa using hr.rotate
    have hn : L.next p = h := by simpa using hrot.next_head.symm
    have hsplice := listSpliceRaw_ring hrot hl hne fun y hy hm => hd y hy (by
      simp only [List.mem_cons, List.mem_append, List.not_mem_nil, or_false] at hm ⊢
      tauto)
    rw [hn] at hsplice
    rw [hp]
    simpa using hsplice.rotate

/-- **A list cut in two behind the entry `c`.** -/
theorem listCutPositionRaw_ring (hr : LinkRing L h (xs ++ c :: ys))
    (hl : l ∉ h :: (xs ++ c :: ys)) :
    LinkRing (listCutPositionRaw L l h c) l (xs ++ [c]) ∧
      LinkRing (listCutPositionRaw L l h c) h ys := by
  obtain ⟨-, hfront, hback⟩ := hr.parts
  have hnd := hr.nodup
  have hfront : LinkPath L (xs ++ [c]) := hfront.tail
  -- the first entry, which stays in front, and the first one behind the cut
  obtain ⟨front, hfirst⟩ : ∃ front, xs ++ [c] = L.next h :: front := by
    have hn := hr.next_head
    cases xs with
    | nil => exact ⟨[], by simpa using hn⟩
    | cons x xs => exact ⟨xs ++ [c], by simpa using hn⟩
  obtain ⟨rest, hrest⟩ : ∃ rest, ys ++ [h] = L.next c :: rest := by
    have hn := hr.next_mem
    cases ys with
    | nil => exact ⟨[], by simpa using hn⟩
    | cons y ys => exact ⟨ys ++ [h], by simpa using hn⟩
  have hfmem : ∀ v ∈ L.next h :: front, v = c ∨ v ∈ xs := by
    intro v hv
    rw [← hfirst, List.mem_append, List.mem_singleton] at hv
    exact hv.symm
  have hrmem : ∀ v ∈ L.next c :: rest, v = h ∨ v ∈ ys := by
    intro v hv
    rw [← hrest, List.mem_append, List.mem_singleton] at hv
    exact hv.symm
  simp only [List.nodup_cons, List.nodup_append, List.mem_append, List.mem_cons, not_or] at hnd
  obtain ⟨⟨hhxs, hhc, hhys⟩, hxs, ⟨hcys, hys⟩, hdis⟩ := hnd
  simp only [List.mem_cons, List.mem_append, not_or] at hl
  obtain ⟨hlh, hlxs, hlc, hlys⟩ := hl
  have hcxs : c ∉ xs := fun hm => hdis c hm c (.inl rfl) rfl
  have hxy : ∀ v ∈ xs, v ∉ ys := fun v hv hy => hdis v hv v (.inr hy) rfl
  have hfirstmem := hfmem _ List.mem_cons_self
  have hnextmem := hrmem _ List.mem_cons_self
  have hfnd : (L.next h :: front).Nodup := by
    rw [← hfirst]
    exact List.nodup_append.2 ⟨hxs, List.nodup_singleton c, fun v hv w hw e =>
      hcxs ((List.mem_singleton.1 hw) ▸ e ▸ hv)⟩
  have hrnd : (L.next c :: rest).Nodup := by
    rw [← hrest]
    exact List.nodup_append.2 ⟨hys, List.nodup_singleton h, fun v hv w hw e =>
      hhys ((List.mem_singleton.1 hw) ▸ e ▸ hv)⟩
  rw [listCutPositionRaw_eq]
  have p1 : LinkPath (L.bypass l (L.next h)) (l :: xs ++ [c]) := by
    rw [List.cons_append, hfirst]
    refine LinkPath.join_cons (hfirst ▸ hfront) (fun hm => ?_) (List.nodup_cons.1 hfnd).1
    rcases hfmem l (List.dropLast_subset _ hm) with e | hm
    · exact hlc e
    · exact hlxs hm
  have q1 : LinkPath (L.bypass l (L.next h)) (ys ++ [h]) := by
    refine hback.bypass (by rwa [List.dropLast_concat]) fun hm => ?_
    have hv := hrmem _ (hrest ▸ List.mem_of_mem_tail hm)
    rcases hfirstmem with e | hx
    · rw [e] at hv
      exact hv.elim (fun e => hhc e.symm) hcys
    · exact hv.elim (fun e => hhxs (e ▸ hx)) (hxy _ hx)
  have p2 : LinkPath ((L.bypass l (L.next h)).bypass c l) (l :: xs ++ [c, l]) :=
    LinkPath.join p1 (List.isChain_singleton l) (by simp [hcxs, Ne.symm hlc])
      (by simp [hlxs, hlc]) (by simp) List.not_mem_nil
  have q2 : LinkPath ((L.bypass l (L.next h)).bypass c l) (ys ++ [h]) := by
    refine q1.bypass (by rwa [List.dropLast_concat]) fun hm => ?_
    have hv := List.mem_of_mem_tail hm
    rw [List.mem_append, List.mem_singleton] at hv
    exact hv.elim hlys hlh
  have hhout : h ∉ l :: xs ++ [c, l] := by simp [hhxs, hhc, Ne.symm hlh]
  have p3 := p2.bypass (a := h) (b := L.next c) (fun hm => hhout (List.dropLast_subset _ hm)) (by
    simp only [List.cons_append, List.tail_cons, List.mem_append, List.mem_cons, List.not_mem_nil,
      or_false, not_or]
    rcases hnextmem with e | hy
    · rw [e]
      exact ⟨hhxs, hhc, Ne.symm hlh⟩
    · exact ⟨fun hx => hxy _ hx hy, fun e => hcys (e ▸ hy), fun e => hlys (e ▸ hy)⟩)
  have q3 := LinkPath.join_cons (a := h) (hrest ▸ q2) (by rwa [← hrest, List.dropLast_concat])
    (List.nodup_cons.1 hrnd).1
  refine ⟨linkRing_iff.2 ⟨?_, by simpa using p3⟩, linkRing_iff.2 ⟨?_, ?_⟩⟩
  · rw [List.nodup_cons, hfirst]
    refine ⟨fun hm => ?_, hfnd⟩
    exact (hfmem l hm).elim hlc hlxs
  · exact List.nodup_cons.2 ⟨hhys, hys⟩
  · rw [hrest]
    exact q3

/-- **One entry in the place of another.** -/
theorem listReplace_ring {old new : P} (hr : LinkRing L h (xs ++ old :: ys))
    (hnew : new ∉ h :: (xs ++ old :: ys)) :
    LinkRing (listReplace L old new) h (xs ++ new :: ys) := by
  obtain ⟨hfront, -, hback⟩ := hr.parts
  obtain ⟨rest, hrest⟩ : ∃ rest, ys ++ [h] = L.next old :: rest := by
    have hn := hr.next_mem
    cases ys with
    | nil => exact ⟨[], by simpa using hn⟩
    | cons y ys => exact ⟨ys ++ [h], by simpa using hn⟩
  obtain ⟨init, hinit⟩ : ∃ init, h :: xs = init ++ [L.prev old] := by
    have hp := hr.prev_mem
    rcases List.eq_nil_or_concat (h :: xs) with hnil | ⟨init, a, ha⟩
    · cases hnil
    · rw [List.concat_eq_append] at ha
      rw [ha, List.getLast?_concat] at hp
      exact ⟨init, by rw [ha, Option.some.inj hp]⟩
  have hnd := hr.nodup
  simp only [List.nodup_cons, List.nodup_append, List.mem_append, List.mem_cons, not_or] at hnd
  obtain ⟨⟨hhxs, hho, hhys⟩, hxs, ⟨hoys, hys⟩, hdis⟩ := hnd
  simp only [List.mem_cons, List.mem_append, not_or] at hnew
  obtain ⟨hnh, hnxs, hno, hnys⟩ := hnew
  have hxy : ∀ v ∈ xs, v ∉ ys := fun v hv hy => hdis v hv v (.inr hy) rfl
  have hrmem : ∀ v ∈ L.next old :: rest, v = h ∨ v ∈ ys := by
    intro v hv
    rw [← hrest, List.mem_append, List.mem_singleton] at hv
    exact hv.symm
  have himem : ∀ v ∈ init ++ [L.prev old], v = h ∨ v ∈ xs := by
    intro v hv
    rwa [← hinit, List.mem_cons] at hv
  have hnext := hrmem _ List.mem_cons_self
  have hprev := himem (L.prev old) (by simp)
  have hne : L.next old ≠ old := fun e => hnext.elim (fun e' => hho (e'.symm.trans e))
    fun hm => hoys (e ▸ hm)
  have hrnd : (L.next old :: rest).Nodup := by
    rw [← hrest]
    exact List.nodup_append.2 ⟨hys, List.nodup_singleton h, fun v hv w hw e =>
      hhys ((List.mem_singleton.1 hw) ▸ e ▸ hv)⟩
  have hind : (init ++ [L.prev old]).Nodup := hinit ▸ List.nodup_cons.2 ⟨hhxs, hxs⟩
  rw [listReplace_eq, bypass_prev_of_ne hne.symm]
  have p1 : LinkPath (L.bypass new (L.next old)) (new :: (L.next old :: rest)) := by
    refine LinkPath.join_cons (hrest ▸ hback) (fun hm => ?_) (List.nodup_cons.1 hrnd).1
    exact (hrmem new (List.dropLast_subset _ hm)).elim hnh hnys
  have q1 : LinkPath (L.bypass new (L.next old)) (init ++ [L.prev old]) := by
    rw [← hinit]
    refine hfront.bypass (fun hm => ?_) fun hm => ?_
    · exact (List.mem_cons.1 (List.dropLast_subset _ hm)).elim hnh hnxs
    · rw [List.tail_cons] at hm
      exact hnext.elim (fun e => hhxs (e ▸ hm)) (hxy _ hm)
  have hpath := LinkPath.join q1 p1 ?_ ?_ ?_ ?_
  · refine linkRing_iff.2 ⟨?_, ?_⟩
    · have hxn : ∀ v ∈ xs, ∀ w, w = new ∨ w ∈ ys → v ≠ w := by
        rintro v hv w (rfl | hw) rfl
        · exact hnxs hv
        · exact hxy _ hv hw
      simp only [List.nodup_cons, List.nodup_append, List.mem_append, List.mem_cons, not_or]
      exact ⟨⟨hhxs, Ne.symm hnh, hhys⟩, hxs, ⟨hnys, hys⟩, hxn⟩
    · have hsplit : h :: (xs ++ new :: ys ++ [h]) =
          init ++ L.prev old :: new :: (L.next old :: rest) := by
        have hcut : h :: (xs ++ new :: ys ++ [h]) = (h :: xs) ++ new :: (ys ++ [h]) := by simp
        rw [hcut, hinit, hrest, List.append_assoc]
        rfl
      rw [hsplit]
      exact hpath
  · exact fun hm => List.disjoint_of_nodup_append hind hm (List.mem_singleton_self _)
  · exact fun hm => (himem new (List.mem_of_mem_tail hm)).elim hnh hnxs
  · rw [List.dropLast_cons_cons, List.mem_cons, not_or]
    refine ⟨fun e => ?_, fun hm => ?_⟩
    · exact hprev.elim (fun e' => hnh (e.symm.trans e')) fun hm => hnxs (e ▸ hm)
    · have hm' := hm
      rw [← hrest, List.dropLast_concat] at hm'
      exact hprev.elim (fun e => hhys (e ▸ hm')) fun hx => hxy _ hx hm'
  · exact fun hm => (hrmem new hm).elim hnh hnys

/-- A head in the place of another: the contents are the same. -/
theorem listReplace_head {old new : P} (hr : LinkRing L old xs) (hnew : new ∉ old :: xs) :
    LinkRing (listReplace L old new) new xs := by
  rcases List.eq_nil_or_concat xs with rfl | ⟨zs, z, rfl⟩
  · -- the new head is linked to the old one, and then to itself
    obtain ⟨hn, hp⟩ := LinkRing.nil_iff.1 hr
    have hne : new ≠ old := fun e => hnew (e ▸ List.mem_cons_self)
    refine LinkRing.nil_iff.2 ⟨?_, ?_⟩
    · simp [listReplace, hn]
    · simp [listReplace, hn]
  · rw [List.concat_eq_append] at hr hnew ⊢
    have hrot : LinkRing L z ([] ++ old :: zs) := by simpa using hr.rotate
    have hrep := listReplace_ring hrot fun hm => hnew (by
      simp only [List.mem_cons, List.mem_append, List.nil_append, List.not_mem_nil, or_false] at hm ⊢
      tauto)
    simpa using hrep.rotate

end Hurlex
