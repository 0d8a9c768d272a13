import Dico.List.Cursor
import Dico.List.Sorted
import Mathlib.Data.List.Perm.Subperm
/-!
# The positions of iterators

An iterator counts how far it is from the head. The calls that change the
list adjust the count of the iterators attached to it, but not all of
them: an iterator that stands at the head is not moved when an entry is put before
it, and none is moved when an entry before it is taken out. The positions
stay right exactly in runs without such calls.
-/

namespace Dico

open Chain

variable {α : Type}

/-- The position of an iterator that is at an entry, and not marked, is the
index of that entry. -/
def Iterator.RightIn (as : List ℕ) (ip : Iterator) : Prop :=
  ip.advanced = 0 → ∀ b ∈ ip.cur, as[ip.pos.toNat]? = some b

namespace DicoList

/-- The entry at `b` is the one with index `i`. -/
def IsAt (c : DicoList α) (i b : ℕ) : Prop :=
  ∃ as, Path (fun a => (c.heap a).map Node.next) c.head as ∧ as[i]? = some b

/-- **The positions are right**: the entries are a chain from the head, and
the position of every iterator is right among them. -/
def PositionsRight (c : DicoList α) : Prop :=
  ∃ as, Path (fun a => (c.heap a).map Node.next) c.head as ∧ ∀ q ∈ c.itr, q.2.RightIn as

/-- No iterator that is not marked stands at the head. -/
def NoneAtHead (c : DicoList α) : Prop :=
  ∀ q ∈ c.itr, q.2.advanced = 0 → ∀ b ∈ q.2.cur, c.head ≠ some b

/-- No iterator that is not marked stands behind the entry at `b`. -/
def NoneBehind (c : DicoList α) (b : ℕ) : Prop :=
  ∀ q ∈ c.itr, q.2.advanced = 0 → ∀ d ∈ q.2.cur, ∀ i j, c.IsAt i b → c.IsAt j d → j ≤ i

end DicoList

/-- The calls that build and change a list, and those that go through it
forward. Addresses are machine words. -/
def ListOp.Forward : ListOp α → Prop
  | .append a _ | .prepend a _ | .insertSorted a _ => a < 2 ^ 64
  | .remove _ | .iterator _ | .first _ | .next _ | .destroy _ => True
  | _ => False

/-- When a call keeps the positions. A new entry comes before the head
also when `dico_list_insert_sorted` stops at an entry without a link back. -/
def ListOp.KeepsPositions [DecidableEq α] (c : DicoList α) : ListOp α → Prop
  | .prepend a data =>
    (c.heap a).isSome ∨ c.equalAt compareHead c.head data = .ok true ∨ c.NoneAtHead
  | .insertSorted a data =>
    (c.heap a).isSome ∨ ∀ b i, c.findSpot data (c.count + 1) c.head 0 = .ok (.before b i) →
      (c.heap b).bind Node.prev = none → c.NoneAtHead
  | .remove data =>
    ∀ b, c.findEntry data (c.count + 1) c.head = .ok (some b) →
      (c.head = some b ∨ (c.heap b).bind Node.prev ≠ none) ∧ c.NoneBehind b
  | .next k =>
    ∀ ip ∈ c.iteratorOf k, ip.advanced ≠ 0 → ∀ b ∈ ip.cur, c.IsAt ip.pos.toNat b
  | _ => True

/-! ## More on links back that are cut -/

variable {H : List ℕ} {h : Heap α} {c c' : DicoList α} {p : PureList α} {a b k : ℕ} {x : α}
  {u v : List (ℕ × α)} {ip : Iterator} {rc : ℕ}

theorem cut_nil (c : DicoList α) : c.cut [] = c := by
  have hheap : cutBack [] c.heap = c.heap := by
    funext b
    exact cutBack_of_not_mem List.not_mem_nil
  rw [DicoList.cut, hheap]

/-- An entry without a link back has none to be cut. -/
theorem cut_cons {n : Option ℕ} (ha : c.heap a = some ⟨n, none, x⟩) : c.cut (a :: H) = c.cut H := by
  have hheap : cutBack (a :: H) c.heap = cutBack H c.heap := by
    funext b
    by_cases hb : b = a
    · subst hb
      rw [cutBack_of_mem List.mem_cons_self]
      by_cases hH : b ∈ H
      · rw [cutBack_of_mem hH]
      · rw [cutBack_of_not_mem hH, ha]
        rfl
    · simp only [cutBack, List.mem_cons, hb, false_or]
  rw [DicoList.cut, DicoList.cut, hheap]

/-- What is read of an entry but the link back. -/
theorem deref_cut_bind {γ : Type} {f : Node α → Except Fault γ}
    (hf : ∀ e q, f { e with prev := q } = f e) (q : Option ℕ) :
    (DicoList.deref (cutBack H h) q >>= f) = (DicoList.deref h q >>= f) := by
  cases q with
  | none => rfl
  | some a =>
    cases he : h a with
    | none => rw [deref_cut_none he, deref_none he]
    | some e => rw [deref_cut he, deref_some he, ok_bind, ok_bind, hf]

theorem equalAt_cut (flag : ℕ) (q : Option ℕ) :
    (c.cut H).equalAt flag q x = c.equalAt flag q x := by
  unfold DicoList.equalAt DicoList.cut
  dsimp only
  split
  · split
    · exact deref_cut_bind (fun _ _ => rfl) _
    · rfl
  · rfl

theorem current_cut : (c.cut H).current ip = c.current ip := by
  unfold DicoList.current DicoList.cut
  dsimp only
  split
  · rfl
  · exact deref_cut_bind (fun _ _ => rfl) _

/-- A new head, whatever links back are cut. -/
theorem prepend₀_cut_eq (ha : a ∉ H) : (c.cut H).prepend₀ a x = (c.prepend₀ a x).cut H := by
  simp only [DicoList.prepend₀, DicoList.cut, cutBack_update ha]
  rfl

/-- The links back that are still cut when the entry at `a`, before
`next`, is gone. -/
def uncut (H : List ℕ) (a : ℕ) (next : Option ℕ) : List ℕ :=
  H.filter fun b => b ≠ a ∧ next ≠ some b

theorem mem_uncut {next : Option ℕ} : b ∈ uncut H a next ↔ b ∈ H ∧ b ≠ a ∧ next ≠ some b := by
  rw [uncut, List.mem_filter, decide_eq_true_iff]

/-- Taking an entry out of a list with links back cut. The entry behind it
gets its link back again. -/
theorem cutBack_remove (next w : Option ℕ) :
    Function.update (putPrev (cutBack H h) next w) a none =
      cutBack (uncut H a next) (Function.update (putPrev h next w) a none) := by
  funext b
  by_cases hba : b = a
  · subst hba
    rw [Function.update_self, cutBack_of_not_mem fun hb => (mem_uncut.1 hb).2.1 rfl,
      Function.update_self]
  · rw [Function.update_of_ne hba]
    by_cases hnext : next = some b
    · rw [cutBack_of_not_mem fun hb => (mem_uncut.1 hb).2.2 hnext, Function.update_of_ne hba, hnext,
        putPrev, putPrev, Function.update_self, Function.update_self]
      by_cases hH : b ∈ H
      · rw [cutBack_of_mem hH, Option.map_map]
        rfl
      · rw [cutBack_of_not_mem hH]
    · rw [putPrev_of_ne hnext]
      by_cases hH : b ∈ H
      · rw [cutBack_of_mem hH, cutBack_of_mem (mem_uncut.2 ⟨hH, hba, hnext⟩),
          Function.update_of_ne hba, putPrev_of_ne hnext]
      · rw [cutBack_of_not_mem hH, cutBack_of_not_mem fun hb => hH (mem_uncut.1 hb).1,
          Function.update_of_ne hba, putPrev_of_ne hnext]

/-- **An entry taken out that is the head or has its link back.** -/
theorem removeItem_cut (hr : Refines c p) (hi : p.items = u ++ (a, x) :: v) (ha : u = [] ∨ a ∉ H) :
    ∃ c', (c.cut H).removeItem a = .ok (x, c'.cut (uncut H a (first v none))) ∧
      Refines c' (p.removeAt a) := by
  obtain ⟨c', hc', hr'⟩ := removeItem_refines hr hi
  obtain ⟨hin, hmem⟩ := hr.around hi
  have hhead := hr.head
  have htail := hr.tail
  rw [hi] at hhead htail
  -- the link back is the one the entry has, or there is none anyway
  have hget : cutBack H c.heap a = some ⟨first v none, last none u, x⟩ := by
    rcases ha with rfl | ha
    · by_cases haH : a ∈ H
      · rw [cutBack_of_mem haH, hr.get hi]
        rfl
      · rw [cutBack_of_not_mem haH, hr.get hi]
    · rw [cutBack_of_not_mem ha, hr.get hi]
  rw [removeItem_eq (hr.get hi) hhead htail hin hmem] at hc'
  obtain rfl := (Prod.mk.inj (Except.ok.inj hc')).2
  refine ⟨_, ?_, hr'⟩
  rw [removeItem_eq (c := c.cut H) hget hhead htail
    (fun b hb => mt cutBack_eq_none.1 (hin b hb)) hmem]
  simp only [DicoList.cut, ← cutBack_putNext, cutBack_remove]

/-- The first item. -/
theorem addrs_zero (l : List (ℕ × α)) : (addrs l)[0]? = first l none := by
  rw [first_eq_head?, List.head?_eq_getElem?, addrs, List.getElem?_map]

/-- It is at the head. -/
theorem Refines.addrs_zero (hr : Refines c p) : (addrs p.items)[0]? = c.head :=
  (Dico.addrs_zero p.items).trans hr.head.symm

/-! ## One iterator -/

section One

variable {us vs : List ℕ} {n : Option ℕ}

/-- The number before a word that is not zero. -/
theorem toNat_ofNat_sub_one {n : ℕ} (hpos : 0 < n) (hlt : n < 2 ^ 64) :
    (UInt64.ofNat n - 1).toNat = n - 1 := by
  have hn : (UInt64.ofNat n).toNat = n := UInt64.toNat_ofNat_of_lt hlt
  have hle : (1 : UInt64) ≤ UInt64.ofNat n := by
    rw [UInt64.le_iff_toNat_le, hn]
    exact hpos
  rw [UInt64.toNat_sub_of_le _ _ hle, hn]
  rfl

/-- An index behind or before a place that is filled. -/
theorem getElem?_fill (us vs : List ℕ) (a i : ℕ) :
    (us ++ a :: vs)[if us.length ≤ i then i + 1 else i]? = (us ++ vs)[i]? := by
  split_ifs with hi
  · rw [List.getElem?_append_right (by omega), List.getElem?_append_right hi,
      show i + 1 - us.length = i - us.length + 1 by omega, List.getElem?_cons_succ]
  · rw [List.getElem?_append_left (by omega), List.getElem?_append_left (by omega)]

/-- What is behind the place. -/
theorem getElem?_behind (us vs : List ℕ) (a i : ℕ) :
    (us ++ a :: vs)[us.length + 1 + i]? = vs[i]? := by
  rw [List.getElem?_append_right (by omega),
    show us.length + 1 + i - us.length = i + 1 by omega, List.getElem?_cons_succ]

/-- An address has one index. -/
theorem index_unique (hnd : us.Nodup) {i j a : ℕ} (hi : us[i]? = some a) (hj : us[j]? = some a) :
    i = j := by
  obtain ⟨hlt, -⟩ := List.getElem?_eq_some_iff.1 hi
  exact (List.getElem?_inj hlt hnd).1 (hi.trans hj.symm)

theorem Iterator.RightIn.append (hip : ip.RightIn us) (vs : List ℕ) : ip.RightIn (us ++ vs) := by
  intro hadv b hb
  have hat := hip hadv b hb
  obtain ⟨hlt, -⟩ := List.getElem?_eq_some_iff.1 hat
  rw [List.getElem?_append_left hlt, hat]

/-- **An entry put before the entry of index `us.length`**: the positions
from there on are increased. -/
theorem Iterator.RightIn.increasePos (hip : ip.RightIn (us ++ vs)) {after : UInt64} (a : ℕ)
    (hlen : (us ++ vs).length < 2 ^ 64)
    (hafter : ip.advanced = 0 → ∀ b ∈ ip.cur, after < ip.pos ↔ us.length ≤ ip.pos.toNat) :
    (ip.increasePos after).RightIn (us ++ a :: vs) := by
  intro hadv b hb
  rw [increasePos_cur] at hb
  have hadv : ip.advanced = 0 := by
    unfold Iterator.increasePos at hadv
    split_ifs at hadv
    · exact hadv
    · exact hadv
  have hat := hip hadv b hb
  obtain ⟨hlt, -⟩ := List.getElem?_eq_some_iff.1 hat
  rw [← hat, ← getElem?_fill us vs a]
  congr 1
  unfold Iterator.increasePos
  by_cases hle : us.length ≤ ip.pos.toNat
  · rw [if_pos ((hafter hadv b hb).2 hle), if_pos hle, UInt64.toNat_add]
    exact Nat.mod_eq_of_lt (by simp only [UInt64.toNat_one]; omega)
  · rw [if_neg (mt (hafter hadv b hb).1 hle), if_neg hle]

/-- **An entry taken out**: the positions before it stay, and those at it
are marked. -/
theorem Iterator.RightIn.advance (hip : ip.RightIn (us ++ a :: vs))
    (hvs : ip.advanced = 0 → ∀ b ∈ ip.cur, b ∉ vs) : (ip.advance a n).RightIn (us ++ vs) := by
  intro hadv b hb
  unfold Iterator.advance at hadv hb ⊢
  by_cases hcur : ip.cur = some a
  · rw [if_pos hcur] at hadv
    exact absurd hadv (Nat.succ_ne_zero _)
  · rw [if_neg hcur] at hadv hb ⊢
    have hat := hip hadv b hb
    obtain ⟨hlt, heq⟩ := List.getElem?_eq_some_iff.1 hat
    rw [List.length_append, List.length_cons] at hlt
    have hlt' : ip.pos.toNat < us.length := by
      by_contra hge
      rw [List.getElem?_append_right (by omega)] at hat
      rcases List.mem_cons.1 (List.mem_of_getElem? hat) with rfl | hmem
      · exact hcur hb
      · exact hvs hadv b hb hmem
    rw [List.getElem?_append_left hlt'] at hat ⊢
    exact hat

end One

/-! ## A list whose positions are right -/

/-- The entries, one behind another. -/
theorem Refines.path_cut (hr : Refines c p) (H : List ℕ) :
    Path (fun a => ((c.cut H).heap a).map Node.next) (c.cut H).head (addrs p.items) := by
  simp only [DicoList.cut, cutBack_next, hr.head]
  exact hr.holds.linked.path_next

/-- There are no more distinct numbers below a bound than the bound says. -/
theorem length_le_of_lt {l : List ℕ} {n : ℕ} (hnd : l.Nodup) (hlt : ∀ a ∈ l, a < n) :
    l.length ≤ n := by
  have hsub : l ⊆ List.range n := fun a ha => List.mem_range.2 (hlt a ha)
  have hlen := (List.subperm_of_subset hnd hsub).length_le
  rwa [List.length_range] at hlen

/-- A list with all its links, of which some links back are to be cut,
whose entries are at machine addresses and whose iterators are right. -/
structure Counted (c : DicoList α) (p : PureList α) (H : List ℕ) : Prop where
  refines : Refines c p
  cut_mem : ∀ a ∈ H, a ∈ addrs p.items
  standing : p.Standing
  small : ∀ a ∈ addrs p.items, a < 2 ^ 64
  right : ∀ q ∈ p.itr, q.2.RightIn (addrs p.items)

namespace Counted

theorem path (h : Counted c p H) :
    Path (fun a => ((c.cut H).heap a).map Node.next) (c.cut H).head (addrs p.items) :=
  h.refines.path_cut H

theorem isAt_iff (h : Counted c p H) {i : ℕ} :
    (c.cut H).IsAt i b ↔ (addrs p.items)[i]? = some b := by
  refine ⟨?_, fun hi => ⟨_, h.path, hi⟩⟩
  rintro ⟨as, has, hi⟩
  rwa [has.unique h.path] at hi

theorem positionsRight (h : Counted c p H) : (c.cut H).PositionsRight := by
  refine ⟨_, h.path, fun q hq => h.right q ?_⟩
  rw [← h.refines.itr]
  exact hq

/-- There are no more entries than addresses. -/
theorem length_le (h : Counted c p H) : (addrs p.items).length ≤ 2 ^ 64 :=
  length_le_of_lt h.refines.holds.nodup h.small

/-- An address in use. -/
theorem isSome_iff (h : Counted c p H) : ((c.cut H).heap a).isSome = true ↔ a ∈ addrs p.items := by
  rw [← h.refines.isSome_iff, DicoList.cut, Option.isSome_iff_ne_none, Option.isSome_iff_ne_none,
    Ne, cutBack_eq_none]

theorem not_mem_cut (h : Counted c p H) (ha : a ∉ addrs p.items) : a ∉ H := fun hH =>
  ha (h.cut_mem a hH)

/-- There is an address left for a new entry. -/
theorem length_lt (h : Counted c p H) (ha : a ∉ addrs p.items) (hsmall : a < 2 ^ 64) :
    (addrs p.items).length < 2 ^ 64 :=
  length_le_of_lt (List.nodup_cons.2 ⟨ha, h.refines.holds.nodup⟩)
    (List.forall_mem_cons.2 ⟨hsmall, h.small⟩)

/-- **A new entry behind the others.** -/
theorem append₀ (h : Counted c p H) (ha : a ∉ addrs p.items) (hsmall : a < 2 ^ 64) (x : α) :
    ∃ c', (c.cut H).append₀ a x = .ok (c'.cut H) ∧
      Counted c' { p with items := p.items ++ [(a, x)] } H := by
  obtain ⟨c', hc', hr'⟩ := append₀_refines h.refines (h.refines.heap_eq_none ha) x
  have hitems : addrs (p.items ++ [(a, x)]) = addrs p.items ++ [a] := addrs_append
  refine ⟨c', append₀_cut (h.not_mem_cut ha) hc', hr', fun b hb => ?_, ?_, ?_, ?_⟩
  · rw [hitems]
    exact List.mem_append_left _ (h.cut_mem b hb)
  · refine h.standing.grow fun b hb => ?_
    rw [hitems]
    exact List.mem_append_left _ hb
  · intro b hb
    rw [hitems, List.mem_append, List.mem_singleton] at hb
    rcases hb with hb | rfl
    · exact h.small b hb
    · exact hsmall
  · intro q hq
    rw [hitems]
    exact (h.right q hq).append [a]

/-- **A new entry before the others**, with no iterator at the head. -/
theorem prepend₀ (h : Counted c p H) (ha : a ∉ addrs p.items) (hsmall : a < 2 ^ 64) (x : α)
    (hnone : (c.cut H).NoneAtHead) :
    ∃ c' H', (c.cut H).prepend₀ a x = c'.cut H' ∧
      Counted c' { p with items := (a, x) :: p.items,
                          itr := mapItr (Iterator.increasePos 0) p.itr } H' := by
  have hfree := h.refines.heap_eq_none ha
  have hright : ∀ q ∈ mapItr (Iterator.increasePos 0) p.itr, q.2.RightIn (a :: addrs p.items) := by
    intro q hq
    obtain ⟨q', hq', rfl⟩ := List.mem_map.1 hq
    have hold : q'.2.RightIn ([] ++ addrs p.items) := h.right q' hq'
    refine hold.increasePos a (h.length_lt ha hsmall) fun hadv b hb => ?_
    -- an iterator that is not at the head has a position that is not zero
    have hhead : c.head ≠ some b := hnone q' (h.refines.itr ▸ hq') hadv b hb
    have hpos : q'.2.pos.toNat ≠ 0 := by
      intro hzero
      have hat := h.right q' hq' hadv b hb
      rw [hzero, h.refines.addrs_zero] at hat
      exact hhead hat
    rw [UInt64.lt_iff_toNat_lt]
    simp only [UInt64.toNat_zero, List.length_nil, Nat.zero_le, iff_true]
    omega
  have hsmall' : ∀ b ∈ addrs ((a, x) :: p.items), b < 2 ^ 64 :=
    List.forall_mem_cons.2 ⟨hsmall, h.small⟩
  have hstanding : PureList.Standing { p with
      items := (a, x) :: p.items, itr := mapItr (Iterator.increasePos 0) p.itr } := by
    refine h.standing.mapItr fun ip hip b hb => ?_
    rw [increasePos_cur] at hb
    exact List.mem_cons_of_mem _ (hip b hb)
  cases hi : p.items with
  | nil =>
    refine ⟨_, H, prepend₀_cut_eq (h.not_mem_cut ha), ?_⟩
    rw [← hi]
    exact ⟨prepend₀_refines h.refines hfree x hi,
      fun b hb => List.mem_cons_of_mem _ (h.cut_mem b hb), hstanding, hsmall', hright⟩
  | cons i l =>
    -- the head has no link back, so cutting it changes nothing
    have hget : c.heap i.1 = some ⟨first l none, none, i.2⟩ :=
      h.refines.get (show p.items = [] ++ (i.1, i.2) :: l from hi)
    have hmem : i.1 ∈ addrs p.items := by
      rw [hi]
      exact List.mem_cons_self
    have haH : a ∉ i.1 :: H := by
      rw [List.mem_cons, not_or]
      exact ⟨fun heq => ha (heq ▸ hmem), h.not_mem_cut ha⟩
    obtain ⟨c', hc', hr'⟩ := prepend₀_cut h.refines hfree hi List.mem_cons_self haH x
    rw [cut_cons hget] at hc'
    rw [← hi]
    refine ⟨c', a :: i.1 :: H, hc', hr', ?_, hstanding, hsmall', hright⟩
    exact List.forall_mem_cons.2 ⟨List.mem_cons_self, List.forall_mem_cons.2
      ⟨List.mem_cons_of_mem _ hmem, fun b hb => List.mem_cons_of_mem _ (h.cut_mem b hb)⟩⟩

/-- **With an iterator at the head its position is wrong afterwards.** -/
theorem prepend₀_wrong (h : Counted c p H) (ha : a ∉ addrs p.items) (x : α)
    (hnone : ¬ (c.cut H).NoneAtHead) : ¬ ((c.cut H).prepend₀ a x).PositionsRight := by
  simp only [DicoList.NoneAtHead, not_forall, not_not] at hnone
  obtain ⟨q, hq, hadv, b, hb, hhead⟩ := hnone
  have hq : q ∈ p.itr := h.refines.itr ▸ hq
  have hat := h.right q hq hadv b hb
  have hzero : (addrs p.items)[0]? = some b := h.refines.addrs_zero.trans hhead
  have hpos : q.2.pos.toNat = 0 := index_unique h.refines.holds.nodup hat hzero
  -- the position is zero, so it is not increased
  have hsame : q.2.increasePos 0 = q.2 := by
    refine if_neg ?_
    rw [UInt64.lt_iff_toNat_lt, hpos]
    exact lt_irrefl 0
  rintro ⟨as, has, hright⟩
  have hpath : Path (fun d => (((c.cut H).prepend₀ a x).heap d).map Node.next) (some a)
      (a :: addrs p.items) := by
    refine ⟨rfl, (c.cut H).head, ?_, h.path.congr fun d hd => ?_⟩
    · simp only [DicoList.prepend₀, Function.update_self, Option.map_some]
    · have hda : d ≠ a := fun heq => ha (heq ▸ hd)
      simp only [DicoList.prepend₀, Function.update_of_ne hda]
  have hq' : (q.1, q.2) ∈ ((c.cut H).prepend₀ a x).itr := by
    have hmem : (q.1, q.2.increasePos 0) ∈ mapItr (Iterator.increasePos 0) p.itr :=
      List.mem_map.2 ⟨q, hq, rfl⟩
    rw [hsame, ← h.refines.itr] at hmem
    exact hmem
  have hnew := hright _ hq' hadv b hb
  rw [has.unique hpath, hpos] at hnew
  obtain rfl := Option.some.inj hnew
  exact ha (List.mem_of_getElem? hat)

/-- What is compared at an end. -/
theorem equalAt (h : Counted c p H) (flag : ℕ) {i : Option (ℕ × α)} (hi : ∀ j ∈ i, j ∈ p.items)
    (x : α) : (c.cut H).equalAt flag (i.map Prod.fst) x = .ok (p.refuses flag i x) := by
  rw [equalAt_cut]
  exact equalAt_eq h.refines flag hi x

theorem append (h : Counted c p H) (ha : a ∉ addrs p.items) (hsmall : a < 2 ^ 64) (x : α) :
    ∃ rc c' p', (c.cut H).append a x = .ok (rc, c'.cut H) ∧ Counted c' p' H := by
  have htail : (c.cut H).tail = p.items.getLast?.map Prod.fst :=
    h.refines.tail.trans last_eq_getLast?
  rw [DicoList.append, htail, h.equalAt _ fun j hj => List.mem_of_getLast? hj, ok_bind]
  split_ifs
  · exact ⟨1, c, p, rfl, h⟩
  · obtain ⟨c', hc', h'⟩ := h.append₀ ha hsmall x
    exact ⟨0, c', _, by rw [hc', ok_bind], h'⟩

/-- What `dico_list_prepend` does. -/
theorem prepend_eq (h : Counted c p H) (a : ℕ) (x : α) :
    (c.cut H).prepend a x = .ok (if p.refuses compareHead p.items.head? x then (1, c.cut H)
      else (0, (c.cut H).prepend₀ a x)) ∧
    (c.cut H).equalAt compareHead (c.cut H).head x =
      .ok (p.refuses compareHead p.items.head? x) := by
  have hhead : (c.cut H).head = p.items.head?.map Prod.fst := h.refines.head.trans first_eq_head?
  have hequal : (c.cut H).equalAt compareHead (c.cut H).head x =
      .ok (p.refuses compareHead p.items.head? x) := by
    rw [hhead]
    exact h.equalAt _ (fun j hj => List.mem_of_mem_head? hj) x
  refine ⟨?_, hequal⟩
  rw [DicoList.prepend, hequal, ok_bind]
  split_ifs
  · rfl
  · rfl

theorem prepend (h : Counted c p H) (ha : a ∉ addrs p.items) (hsmall : a < 2 ^ 64)
    (hkeep : (c.cut H).equalAt compareHead (c.cut H).head x = .ok true ∨ (c.cut H).NoneAtHead) :
    ∃ rc c' p' H', (c.cut H).prepend a x = .ok (rc, c'.cut H') ∧ Counted c' p' H' := by
  obtain ⟨heq, hequal⟩ := h.prepend_eq a x
  rw [hequal] at hkeep
  rw [heq]
  split_ifs with href
  · exact ⟨1, c, p, H, rfl, h⟩
  · have hnone := hkeep.resolve_left fun htrue => href (Except.ok.inj htrue)
    obtain ⟨c', H', hc', h'⟩ := h.prepend₀ ha hsmall x hnone
    exact ⟨0, c', _, H', by rw [hc'], h'⟩

theorem prepend_wrong (h : Counted c p H) (ha : a ∉ addrs p.items)
    (hkeep : ¬ ((c.cut H).equalAt compareHead (c.cut H).head x = .ok true ∨
      (c.cut H).NoneAtHead)) (hc' : (c.cut H).prepend a x = .ok (rc, c')) :
    ¬ c'.PositionsRight := by
  obtain ⟨heq, hequal⟩ := h.prepend_eq a x
  rw [hequal, not_or] at hkeep
  rw [heq, if_neg fun href => hkeep.1 (congrArg _ href)] at hc'
  obtain ⟨-, rfl⟩ := Prod.mk.inj (Except.ok.inj hc')
  exact h.prepend₀_wrong ha x hkeep.2

/-- **A new entry between two others.** -/
theorem insertBefore (h : Counted c p H) (ha : a ∉ addrs p.items) (hsmall : a < 2 ^ 64) (x : α)
    {i : ℕ × α} {y : α} (hi : p.items = (u ++ [i]) ++ (b, y) :: v) (hb : b ∉ H) :
    ∃ c' p', (c.cut H).insertBefore a b (u ++ [i]).length x = .ok (c'.cut H) ∧
      Counted c' p' H := by
  obtain ⟨c', hc', hr'⟩ := insertBefore_refines h.refines (h.refines.heap_eq_none ha) x hi
    (u ++ [i]).length
  have hold : addrs p.items = addrs (u ++ [i]) ++ addrs ((b, y) :: v) := by rw [hi, addrs_append]
  have hnew : addrs ((u ++ [i]) ++ (a, x) :: (b, y) :: v) =
      addrs (u ++ [i]) ++ a :: addrs ((b, y) :: v) := addrs_append
  have hsub : ∀ d ∈ addrs p.items, d ∈ addrs ((u ++ [i]) ++ (a, x) :: (b, y) :: v) := by
    intro d hd
    rw [hold, List.mem_append] at hd
    rw [hnew, List.mem_append]
    exact hd.imp_right (List.mem_cons_of_mem a)
  refine ⟨c', _, insertBefore_cut (h.not_mem_cut ha) hb hc', hr',
    fun d hd => hsub d (h.cut_mem d hd), ?_, ?_, ?_⟩
  · refine h.standing.mapItr fun ip hip d hd => ?_
    rw [increasePos_cur] at hd
    exact hsub d (hip d hd)
  · intro d hd
    rw [hnew, List.mem_append, List.mem_cons] at hd
    rcases hd with hd | rfl | hd
    · exact h.small d (by rw [hold]; exact List.mem_append_left _ hd)
    · exact hsmall
    · exact h.small d (by rw [hold]; exact List.mem_append_right _ hd)
  · intro q hq
    obtain ⟨q', hq', rfl⟩ := List.mem_map.1 hq
    have hlen := h.length_lt ha hsmall
    have hright := h.right q' hq'
    rw [hold] at hlen hright
    rw [hnew]
    refine hright.increasePos a hlen fun _ _ _ => ?_
    -- the last position that is not increased is the one before the new entry
    have hu : (addrs (u ++ [i])).length = (u ++ [i]).length := List.length_map _
    have hpos : 0 < (u ++ [i]).length := by
      rw [List.length_append, List.length_singleton]
      omega
    rw [List.length_append] at hlen
    rw [UInt64.lt_iff_toNat_lt, hu, toNat_ofNat_sub_one hpos (by omega)]
    omega

/-- The link back of an entry. -/
theorem prev_eq (h : Counted c p H) (hi : p.items = u ++ (b, x) :: v) :
    ((c.cut H).heap b).bind Node.prev = if b ∈ H then none else last none u := by
  have hget := h.refines.get hi
  show (cutBack H c.heap b).bind Node.prev = _
  by_cases hb : b ∈ H
  · rw [if_pos hb, cutBack_of_mem hb, hget]
    rfl
  · rw [if_neg hb, cutBack_of_not_mem hb, hget]
    rfl

section Compare

variable [DecidableEq α]

/-- The search of `dico_list_insert_sorted`. -/
theorem findSpot (h : Counted c p H) (x : α) :
    (c.cut H).findSpot x ((c.cut H).count + 1) (c.cut H).head 0 =
      .ok (spotOf 0 (p.spot x p.items)) := findSpot_cut_head h.refines

/-- **A new entry where `dico_list_insert_sorted` puts it.** -/
theorem insertSorted (h : Counted c p H) (ha : a ∉ addrs p.items) (hsmall : a < 2 ^ 64)
    (hnone : ∀ b i, (c.cut H).findSpot x ((c.cut H).count + 1) (c.cut H).head 0 =
      .ok (.before b i) → ((c.cut H).heap b).bind Node.prev = none → (c.cut H).NoneAtHead) :
    ∃ rc c' p' H', (c.cut H).insertSorted a x = .ok (rc, c'.cut H') ∧ Counted c' p' H' := by
  have hspot := h.findSpot x
  rw [hspot] at hnone
  rw [DicoList.insertSorted, hspot, ok_bind]
  rcases hs : p.spot x p.items with _ | ⟨u, _ | ⟨⟨b, y⟩, v⟩⟩
  · exact ⟨EEXIST, c, p, H, rfl, h⟩
  · obtain ⟨c', hc', h'⟩ := h.append₀ ha hsmall x
    exact ⟨0, c', _, H, by simp only [spotOf, hc', ok_bind], h'⟩
  · have hi := spot_append hs
    rw [hs] at hnone
    have hnone := hnone b _ rfl
    rw [h.prev_eq hi] at hnone
    have hderef : DicoList.deref (c.cut H).heap (some b) =
        .ok ⟨first v none, if b ∈ H then none else last none u, y⟩ := deref_cut (h.refines.get hi)
    -- where the link back is gone, the entry goes before all others
    by_cases hprev : (if b ∈ H then none else last none u) = none
    · obtain ⟨c', H', hc', h'⟩ := h.prepend₀ ha hsmall x (hnone hprev)
      exact ⟨0, c', _, H', by simp only [spotOf, hderef, ok_bind, if_pos hprev, hc'], h'⟩
    · have hb : b ∉ H := fun hb => hprev (if_pos hb)
      have hu : u ≠ [] := by
        rintro rfl
        exact hprev (ite_self none)
      obtain ⟨w, i, rfl⟩ := (List.eq_nil_or_concat u).resolve_left hu
      rw [List.concat_eq_append] at hs hi hu hprev hderef
      obtain ⟨c', p', hc', h'⟩ := h.insertBefore ha hsmall x hi hb
      refine ⟨0, c', p', H, ?_, h'⟩
      rw [List.concat_eq_append]
      simp only [spotOf, Nat.zero_add, hderef, ok_bind, if_neg hprev, hc']

/-- At an entry without a link back the new one comes before the head. -/
theorem insertSorted_front {i : ℕ} (hspot : c.findSpot x (c.count + 1) c.head 0 = .ok (.before b i))
    {e : Node α} (hb : c.heap b = some e) (hprev : e.prev = none) :
    c.insertSorted a x = .ok (0, c.prepend₀ a x) := by
  rw [DicoList.insertSorted, hspot, ok_bind]
  simp only [deref_some hb, ok_bind, if_pos hprev]

theorem insertSorted_wrong (h : Counted c p H) (ha : a ∉ addrs p.items) {i : ℕ}
    (hspot : (c.cut H).findSpot x ((c.cut H).count + 1) (c.cut H).head 0 = .ok (.before b i))
    (hprev : ((c.cut H).heap b).bind Node.prev = none) (hnone : ¬ (c.cut H).NoneAtHead)
    (hc' : (c.cut H).insertSorted a x = .ok (rc, c')) : ¬ c'.PositionsRight := by
  have hb : b ∈ addrs p.items := by
    have hs := h.findSpot x
    rw [hspot] at hs
    rcases ho : p.spot x p.items with _ | ⟨u, _ | ⟨⟨d, y⟩, v⟩⟩
    · rw [ho] at hs
      cases hs
    · rw [ho] at hs
      cases hs
    · rw [ho] at hs
      obtain ⟨rfl, -⟩ := DicoList.Spot.before.inj (Except.ok.inj hs)
      rw [spot_append ho, addrs_append]
      exact List.mem_append_right _ List.mem_cons_self
  obtain ⟨e, he⟩ := Option.isSome_iff_exists.1 (h.isSome_iff.2 hb)
  rw [he, Option.bind_some] at hprev
  rw [insertSorted_front hspot he hprev] at hc'
  obtain ⟨-, rfl⟩ := Prod.mk.inj (Except.ok.inj hc')
  exact h.prepend₀_wrong ha x hnone

end Compare

/-! ## Taking out -/

/-- The entries before, at and behind an item. -/
theorem addrs_split (hi : p.items = u ++ (b, x) :: v) :
    addrs p.items = addrs u ++ b :: addrs v := by
  rw [hi, addrs_append, addrs_cons]

/-- The items that are left. -/
theorem items_removeAt (hr : Refines c p) (hi : p.items = u ++ (b, x) :: v) :
    (p.removeAt b).items = u ++ v := by
  have hnd := hr.holds.nodup
  rw [hi] at hnd
  obtain ⟨-, -, herase⟩ := split_item (q := none) hnd
  rw [PureList.removeAt, hi]
  exact herase

/-- **An entry taken out that is the head or has its link back**, with no
iterator behind it. -/
theorem removeItem (h : Counted c p H) (hi : p.items = u ++ (b, x) :: v) (hb : u = [] ∨ b ∉ H)
    (hnone : (c.cut H).NoneBehind b) :
    ∃ c' p' H', (c.cut H).removeItem b = .ok (x, c'.cut H') ∧ Counted c' p' H' := by
  have hsplit := addrs_split hi
  have hitems := items_removeAt h.refines hi
  have hmem : ∀ d ∈ addrs p.items, d ≠ b → d ∈ addrs (u ++ v) := by
    intro d hd hdb
    rw [hsplit, List.mem_append, List.mem_cons] at hd
    rw [addrs_append, List.mem_append]
    exact hd.imp_right fun hd => hd.resolve_left hdb
  obtain ⟨c', hc', hr'⟩ := removeItem_cut h.refines hi hb
  refine ⟨c', p.removeAt b, _, hc', hr', ?_, ?_, ?_, ?_⟩
  · intro d hd
    rw [hitems]
    exact hmem d (h.cut_mem d (mem_uncut.1 hd).1) (mem_uncut.1 hd).2.1
  · refine h.standing.removeAt h.refines.holds.nodup ?_
    rw [hsplit]
    exact List.mem_append_right _ List.mem_cons_self
  · intro d hd
    rw [hitems, addrs_append, List.mem_append] at hd
    refine h.small d ?_
    rw [hsplit, List.mem_append, List.mem_cons]
    exact hd.imp_right .inr
  · intro q hq
    obtain ⟨q', hq', rfl⟩ := List.mem_map.1 hq
    have hright := h.right q' hq'
    rw [hsplit] at hright
    rw [hitems, addrs_append]
    -- an iterator behind the entry would be at a greater index
    refine hright.advance fun hadv d hd hdv => ?_
    obtain ⟨m, hm⟩ := List.getElem?_of_mem hdv
    have hle := hnone q' (h.refines.itr ▸ hq') hadv d hd (addrs u).length ((addrs u).length + 1 + m)
      (h.isAt_iff.2 ?_) (h.isAt_iff.2 ?_)
    · omega
    · rw [hsplit, getElem?_place]
    · rw [hsplit, getElem?_behind, hm]

/-- **With an iterator behind it its position is wrong afterwards.** -/
theorem removeItem_behind (h : Counted c p H) (hi : p.items = u ++ (b, x) :: v)
    (hb : u = [] ∨ b ∉ H) (hnone : ¬ (c.cut H).NoneBehind b) {y : α}
    (hc' : (c.cut H).removeItem b = .ok (y, c')) : ¬ c'.PositionsRight := by
  simp only [DicoList.NoneBehind, not_forall] at hnone
  obtain ⟨q, hq, hadv, d, hd, i, j, hat, hat', hji⟩ := hnone
  rw [h.isAt_iff, addrs_split hi] at hat hat'
  have hq : q ∈ p.itr := h.refines.itr ▸ hq
  have hnd := h.refines.holds.nodup
  rw [addrs_split hi] at hnd
  have hpos : q.2.pos.toNat = j := by
    have hright := h.right q hq hadv d hd
    rw [addrs_split hi] at hright
    exact index_unique hnd hright hat'
  have hib : i = (addrs u).length := index_unique hnd hat (getElem?_place _ _ _)
  have hdb : d ≠ b := by
    rintro rfl
    have := index_unique hnd hat hat'
    omega
  obtain ⟨c₁, hc₁, hr₁⟩ := removeItem_cut h.refines hi hb
  rw [hc₁] at hc'
  obtain ⟨-, rfl⟩ := Prod.mk.inj (Except.ok.inj hc')
  have hbefore : (addrs u ++ addrs v)[j - 1]? = some d := by
    have hfill := getElem?_fill (addrs u) (addrs v) b (j - 1)
    rw [if_pos (by omega), show j - 1 + 1 = j by omega, hat'] at hfill
    exact hfill.symm
  -- the iterator has not been moved, nor its position
  have hstays : ∀ n, q.2.advance b n = q.2 := by
    intro n
    refine if_neg fun hcur => hdb ?_
    rw [Option.mem_def, hcur] at hd
    exact (Option.some.inj hd).symm
  have hq' : q ∈ (c₁.cut (uncut H b (first v none))).itr := by
    show q ∈ c₁.itr
    rw [hr₁.itr]
    refine List.mem_map.2 ⟨q, hq, ?_⟩
    rw [hstays]
  rintro ⟨as, has, hright⟩
  have hpath := hr₁.path_cut (uncut H b (first v none))
  rw [items_removeAt h.refines hi, addrs_append] at hpath
  have hafter := hright q hq' hadv d hd
  rw [has.unique hpath, hpos] at hafter
  have hnd' : (addrs u ++ addrs v).Nodup := by
    rw [← addrs_append, ← items_removeAt h.refines hi]
    exact hr₁.holds.nodup
  have := index_unique hnd' hafter hbefore
  omega

/-- Links that lead to an entry that is gone. -/
theorem not_path_of_linked {h h' : Heap α} {q : Option ℕ} (hl : Linked h q u (some b))
    (hsame : ∀ a ∈ addrs u, (h' a).map Node.next = (h a).map Node.next) (hb : h' b = none)
    (as : List ℕ) : ¬ Path (fun a => (h' a).map Node.next) (first u (some b)) as := by
  induction u generalizing q as with
  | nil =>
    cases as with
    | nil => exact id
    | cons d as =>
      rintro ⟨-, s, hs, -⟩
      simp only [hb, Option.map_none, reduceCtorEq] at hs
  | cons i u ih =>
    obtain ⟨hi, hsame⟩ := List.forall_mem_cons.1 hsame
    cases as with
    | nil => exact id
    | cons d as =>
      rintro ⟨-, s, hs, hrest⟩
      simp only [hi, hl.1, Option.map_some, Option.some.injEq] at hs
      subst hs
      exact ih hl.2 hsame as hrest

/-- A link forward does not change with one back. -/
theorem putPrev_next {r w : Option ℕ} :
    (putPrev h r w a).map Node.next = (h a).map Node.next := by
  by_cases hr : r = some a
  · rw [hr, putPrev, Function.update_self, Option.map_map]
    rfl
  · rw [putPrev_of_ne hr]

/-- **Without its link back an entry is not unlinked**: the head moves on
instead, and the chain leads to the entry that is gone. -/
theorem removeItem_unlinked (h : Counted c p H) (hi : p.items = u ++ (b, x) :: v)
    (hu : u ≠ []) (hb : b ∈ H) {y : α}
    (hc' : (c.cut H).removeItem b = .ok (y, c')) : ¬ c'.PositionsRight := by
  obtain ⟨i, w, rfl⟩ := List.exists_cons_of_ne_nil hu
  have hlink := h.refines.holds.linked
  have hnd := h.refines.holds.nodup
  rw [hi] at hlink
  rw [addrs_split hi] at hnd
  have hget : cutBack H c.heap b = some ⟨first v none, none, x⟩ := by
    rw [cutBack_of_mem hb, h.refines.get hi]
    rfl
  have hhead : c.head = some i.1 := by
    rw [h.refines.head, hi]
    rfl
  have hfirst : c.heap i.1 = some ⟨first w (some b), none, i.2⟩ := by
    have happ : first (w ++ (b, x) :: v) none = first w (some b) := first_append
    rw [← happ]
    exact hlink.1
  have hwb : Linked c.heap (some i.1) w (some b) := (linked_append.1 hlink).1.2
  -- without a link back the entry is taken for the head, and the real head is dropped
  have hnext : c'.head = first w (some b) ∧
      c'.heap = Function.update (putPrev (cutBack H c.heap) (first v none) none) b none := by
    rw [DicoList.removeItem] at hc'
    simp only [DicoList.cut, deref_some hget, ok_bind, DicoList.unlinkNext, hhead,
      deref_cut hfirst, DicoList.unlinkPrev] at hc'
    cases v with
    | nil =>
      simp only [first, ok_bind] at hc'
      obtain ⟨-, rfl⟩ := Prod.mk.inj (Except.ok.inj hc')
      exact ⟨rfl, rfl⟩
    | cons j v =>
      have hj : cutBack H c.heap j.1 ≠ none := by
        refine mt cutBack_eq_none.1 (h.refines.holds.mem_iff.1 ?_)
        rw [addrs_split hi]
        exact List.mem_append_right _ (List.mem_cons_of_mem _ List.mem_cons_self)
      simp only [first, storePrev_ok hj, ok_bind] at hc'
      obtain ⟨-, rfl⟩ := Prod.mk.inj (Except.ok.inj hc')
      exact ⟨rfl, rfl⟩
  rintro ⟨as, has, -⟩
  rw [hnext.1] at has
  refine not_path_of_linked hwb (fun a ha => ?_) ?_ as has
  · have hab : a ≠ b := by
      rintro rfl
      exact (List.nodup_append.1 hnd).2.2 a (List.mem_cons_of_mem _ ha) a List.mem_cons_self rfl
    rw [hnext.2, Function.update_of_ne hab, putPrev_next, cutBack_next]
  · rw [hnext.2, Function.update_self]

/-- Whether an entry is the head, or has its link back. -/
theorem linked_iff (h : Counted c p H) {y : α} (hi : p.items = u ++ (b, y) :: v) :
    ((c.cut H).head = some b ∨ ((c.cut H).heap b).bind Node.prev ≠ none) ↔ u = [] ∨ b ∉ H := by
  rw [h.prev_eq hi]
  show (c.head = some b ∨ _) ↔ _
  rw [h.refines.head, hi]
  cases u with
  | nil => exact ⟨fun _ => .inl rfl, fun _ => .inl rfl⟩
  | cons i u =>
    have hib : first (i :: u ++ (b, y) :: v) none ≠ some b := by
      intro heq
      have hnd := h.refines.holds.nodup
      rw [addrs_split hi] at hnd
      refine (List.nodup_append.1 hnd).2.2 b ?_ b List.mem_cons_self rfl
      rw [← Option.some.inj heq]
      exact List.mem_cons_self
    obtain ⟨d, -, hlast⟩ := last_mem (p := none) (List.cons_ne_nil i u)
    rw [hlast, or_iff_right hib, or_iff_right (List.cons_ne_nil i u)]
    by_cases hb : b ∈ H
    · simp only [hb, if_true, ne_eq, not_true_eq_false]
    · simp only [hb, if_false, ne_eq, reduceCtorEq, not_false_eq_true]

section Find

variable [DecidableEq α]

/-- The search of `dico_list_remove` does not look at the links back. -/
theorem findEntry_cut (fuel : ℕ) (s : Option ℕ) :
    (c.cut H).findEntry x fuel s = c.findEntry x fuel s := by
  induction fuel generalizing s with
  | zero => rfl
  | succ fuel ih =>
    cases s with
    | none => rfl
    | some b =>
      rw [DicoList.findEntry, DicoList.findEntry]
      cases he : c.heap b with
      | none => simp only [DicoList.cut, deref_cut_none he, deref_none he, error_bind]
      | some e =>
        simp only [DicoList.cut, deref_cut he, deref_some he, ok_bind]
        have hih := ih e.next
        rw [DicoList.cut] at hih
        rw [hih]
        rfl

/-- The first item with the data. -/
theorem findEntry (h : Counted c p H) (x : α) :
    (c.cut H).findEntry x ((c.cut H).count + 1) (c.cut H).head =
      .ok ((p.items.find? fun i => p.cmp i.2 x = 0).map Prod.fst) := by
  rw [findEntry_cut]
  show c.findEntry x (c.count + 1) c.head = _
  rw [h.refines.head, h.refines.count]
  exact findEntry_eq x h.refines h.refines.holds.linked (Nat.lt_succ_self _)

/-- **The first item with the data taken out**, where it can be. -/
theorem remove (h : Counted c p H)
    (hkeep : ∀ b, (c.cut H).findEntry x ((c.cut H).count + 1) (c.cut H).head = .ok (some b) →
      ((c.cut H).head = some b ∨ ((c.cut H).heap b).bind Node.prev ≠ none) ∧
        (c.cut H).NoneBehind b) :
    ∃ rc c' p' H', (c.cut H).remove x = .ok (rc, c'.cut H') ∧ Counted c' p' H' := by
  rw [h.findEntry x] at hkeep
  rw [DicoList.remove, h.findEntry x, ok_bind]
  cases hs : p.items.find? fun i => p.cmp i.2 x = 0 with
  | none => exact ⟨1, c, p, H, rfl, h⟩
  | some i =>
    rw [hs] at hkeep
    obtain ⟨u, v, hi⟩ := List.append_of_mem (List.mem_of_find?_eq_some hs)
    obtain ⟨hlinked, hnone⟩ := hkeep i.1 rfl
    obtain ⟨c', p', H', hc', h'⟩ := h.removeItem hi ((h.linked_iff hi).1 hlinked) hnone
    exact ⟨0, c', p', H', by simp only [Option.map_some, hc', ok_bind], h'⟩

theorem remove_wrong (h : Counted c p H)
    (hfind : (c.cut H).findEntry x ((c.cut H).count + 1) (c.cut H).head = .ok (some b))
    (hkeep : ¬ (((c.cut H).head = some b ∨ ((c.cut H).heap b).bind Node.prev ≠ none) ∧
      (c.cut H).NoneBehind b))
    (hc' : (c.cut H).remove x = .ok (rc, c')) : ¬ c'.PositionsRight := by
  rw [DicoList.remove, hfind, ok_bind] at hc'
  obtain ⟨⟨y, c₁⟩, hremove, heq⟩ := bind_eq_ok.1 hc'
  obtain ⟨-, rfl⟩ := Prod.mk.inj (Except.ok.inj heq)
  have hmem : b ∈ addrs p.items := by
    rw [h.findEntry x] at hfind
    obtain ⟨i, hi, rfl⟩ := Option.map_eq_some_iff.1 (Except.ok.inj hfind)
    exact List.mem_map_of_mem (List.mem_of_find?_eq_some hi)
  obtain ⟨u, z, v, hi⟩ := exists_split hmem
  by_cases hb : u = [] ∨ b ∉ H
  · exact h.removeItem_behind hi hb (fun hnone => hkeep ⟨(h.linked_iff hi).2 hb, hnone⟩) hremove
  · rw [not_or, not_not] at hb
    exact h.removeItem_unlinked hi hb.1 hb.2 hremove

end Find

/-! ## Moving -/

/-- An iterator moved to a place where its position is right. -/
theorem moveTo (h : Counted c p H) (k : ℕ) (hip : ip.RightIn (addrs p.items))
    (hstands : ∀ b ∈ ip.cur, b ∈ addrs p.items) :
    ∃ y c' p', (c.cut H).moveTo k ip = .ok (y, c'.cut H) ∧ Counted c' p' H := by
  obtain ⟨y, c', hc', hr'⟩ := moveTo_refines h.refines k hstands
  refine ⟨y, c', _, ?_, hr', h.cut_mem, ?_, h.small, ?_⟩
  · obtain ⟨y', hcur, heq⟩ := bind_eq_ok.1 hc'
    obtain ⟨rfl, rfl⟩ := Prod.mk.inj (Except.ok.inj heq)
    rw [DicoList.moveTo, current_cut, hcur, ok_bind]
    rfl
  · intro q hq b hb
    obtain ⟨q', hq', rfl⟩ := List.mem_map.1 hq
    split_ifs at hb
    · exact hstands b hb
    · exact h.standing q' hq' b hb
  · intro q hq
    obtain ⟨q', hq', rfl⟩ := List.mem_map.1 hq
    split_ifs
    · exact hip
    · exact h.right q' hq'

/-- The index of the head. -/
theorem head_rightIn (h : Counted c p H) : Iterator.RightIn (addrs p.items) ⟨c.head, 0, 0⟩ := by
  intro _ b hb
  exact h.refines.addrs_zero.trans hb

theorem head_mem (h : Counted c p H) : ∀ b ∈ c.head, b ∈ addrs p.items := fun _ hb =>
  mem_of_first (h.refines.head.symm.trans hb)

theorem iteratorOf_eq (h : Counted c p H) (k : ℕ) : (c.cut H).iteratorOf k = p.itr.lookup k :=
  h.refines.iteratorOf_eq k

/-- A new iterator, at the head. -/
theorem attach (h : Counted c p H) (k : ℕ) :
    ∃ c' p', (c.cut H).attach k = c'.cut H ∧ Counted c' p' H := by
  have hr := attach_refines h.refines k
  rw [DicoList.attach, h.iteratorOf_eq]
  by_cases hk : (p.itr.lookup k).isSome = true
  · exact ⟨c, p, if_pos hk, h⟩
  · rw [if_neg hk] at hr
    refine ⟨c.attach k, _, ?_, hr, h.cut_mem, ?_, h.small, ?_⟩
    · rw [if_neg hk, DicoList.attach, h.refines.iteratorOf_eq, if_neg hk]
      rfl
    · exact List.forall_mem_cons.2 ⟨fun b hb => mem_of_first hb, h.standing⟩
    · refine List.forall_mem_cons.2 ⟨?_, h.right⟩
      rw [← h.refines.head]
      exact h.head_rightIn

theorem iteratorFirst (h : Counted c p H) (k : ℕ) :
    ∃ y c' p', (c.cut H).iteratorFirst k = .ok (y, c'.cut H) ∧ Counted c' p' H := by
  cases hk : (c.cut H).iteratorOf k with
  | none => exact ⟨none, c, p, by rw [DicoList.iteratorFirst, hk], h⟩
  | some ip =>
    rw [iteratorFirst_eq hk]
    exact h.moveTo k h.head_rightIn h.head_mem

/-- **One entry on**: the position follows, and a marked iterator that is
right stays. -/
theorem iteratorNext (h : Counted c p H) {k : ℕ}
    (hkeep : ∀ ip ∈ (c.cut H).iteratorOf k, ip.advanced ≠ 0 → ∀ b ∈ ip.cur,
      (c.cut H).IsAt ip.pos.toNat b) :
    ∃ y c' p', (c.cut H).iteratorNext k = .ok (y, c'.cut H) ∧ Counted c' p' H := by
  cases hk : (c.cut H).iteratorOf k with
  | none => exact ⟨none, c, p, by rw [DicoList.iteratorNext, hk], h⟩
  | some ip =>
    cases hcur : ip.cur with
    | none => exact ⟨none, c, p, iteratorNext_atEnd hk hcur, h⟩
    | some b =>
      have hlook := (h.iteratorOf_eq k).symm.trans hk
      have hb : b ∈ addrs p.items := h.standing.stands k ip hlook b hcur
      by_cases hadv : ip.advanced = 0
      · obtain ⟨u, x, v, hi⟩ := exists_split hb
        obtain ⟨l₁, l₂, hitr, -⟩ := List.lookup_eq_some_iff.1 hlook
        have hq : (k, ip) ∈ p.itr := by
          rw [hitr]
          exact List.mem_append_right _ List.mem_cons_self
        have hat := h.right _ hq hadv b hcur
        have hsplit := addrs_split hi
        have hnd := h.refines.holds.nodup
        rw [hsplit] at hat hnd
        -- the position is the number of items before it, and the next is one more
        have hpos : ip.pos.toNat = (addrs u).length :=
          index_unique hnd hat (getElem?_place _ _ _)
        have hnext : ((c.cut H).heap b).map Node.next = some (first v none) := by
          show (cutBack H c.heap b).map Node.next = _
          rw [cutBack_next, h.refines.get hi]
          rfl
        obtain ⟨e, he, hnext⟩ := Option.map_eq_some_iff.1 hnext
        rw [iteratorNext_eq hk hcur hadv he, hnext]
        refine h.moveTo k (fun _ d hd => ?_) fun d hd => ?_
        · have hd : (addrs v)[0]? = some d := (addrs_zero v).trans hd
          obtain ⟨hlt, -⟩ := List.getElem?_eq_some_iff.1 hd
          have hlen := h.length_le
          rw [hsplit, List.length_append, List.length_cons] at hlen
          have hsucc : (ip.pos + 1).toNat = (addrs u).length + 1 := by
            rw [UInt64.toNat_add, hpos]
            exact Nat.mod_eq_of_lt (by simp only [UInt64.toNat_one]; omega)
          show (addrs p.items)[(ip.pos + 1).toNat]? = some d
          rw [hsplit, hsucc]
          exact (getElem?_behind (addrs u) (addrs v) b 0).trans hd
        · rw [hsplit]
          exact List.mem_append_right _ (List.mem_cons_of_mem _ (mem_of_first hd))
      · rw [iteratorNext_marked hk hcur hadv]
        refine h.moveTo k (fun _ d hd => ?_) fun d hd => ?_
        · exact h.isAt_iff.1 (hkeep ip hk hadv d (hcur.trans hd))
        · obtain rfl := Option.some.inj hd
          exact hb

end Counted

/-- **A marked iterator with a wrong position has it without the mark
afterwards.** -/
theorem iteratorNext_wrong {k : ℕ} (hk : c.iteratorOf k = some ip)
    (hadv : ip.advanced ≠ 0) (hcur : ip.cur = some b) (hat : ¬ c.IsAt ip.pos.toNat b)
    {y : Option α} (hc' : c.iteratorNext k = .ok (y, c')) : ¬ c'.PositionsRight := by
  rw [iteratorNext_marked hk hcur hadv] at hc'
  obtain ⟨y', -, heq⟩ := bind_eq_ok.1 hc'
  obtain ⟨-, rfl⟩ := Prod.mk.inj (Except.ok.inj heq)
  rintro ⟨as, has, hright⟩
  refine hat ⟨as, has, hright (k, ⟨some b, 0, ip.pos⟩) ?_ rfl b rfl⟩
  obtain ⟨l₁, l₂, hitr, -⟩ := List.lookup_eq_some_iff.1 hk
  refine List.mem_map.2 ⟨(k, ip), ?_, if_pos rfl⟩
  rw [hitr]
  exact List.mem_append_right _ List.mem_cons_self

/-! ## Runs -/

/-- The list has all its links but some back, and its positions are
right. -/
def Numbered (c : DicoList α) : Prop := ∃ c₀ p H, c = c₀.cut H ∧ Counted c₀ p H

theorem numbered_create (flags : ℕ) (comp : Option (α → α → ℤ)) :
    Numbered (DicoList.create flags comp) := by
  refine ⟨_, _, [], (cut_nil _).symm, create_refines flags comp, ?_, ?_, ?_, ?_⟩
  · exact fun a ha => absurd ha List.not_mem_nil
  · exact fun q hq => absurd hq List.not_mem_nil
  · exact fun a ha => absurd ha List.not_mem_nil
  · exact fun q hq => absurd hq List.not_mem_nil

/-- A call of a function that allocates. -/
theorem Numbered.alloc {f : Except Fault (ℕ × DicoList α)} (h : Numbered c)
    (hf : ¬ (c.heap a).isSome → ∃ rc c', f = .ok (rc, c') ∧ Numbered c') :
    ∃ c', (if (c.heap a).isSome then .ok c else do
        let (_, c') ← f
        .ok c') = Except.ok c' ∧ Numbered c' := by
  by_cases ha : (c.heap a).isSome = true
  · exact ⟨c, if_pos ha, h⟩
  · obtain ⟨rc, c', rfl, h'⟩ := hf ha
    exact ⟨c', if_neg ha, h'⟩

section Runs

variable [DecidableEq α]

/-- **A call that keeps the positions goes through.** -/
theorem Numbered.step (h : Numbered c) {op : ListOp α} (hop : op.Forward)
    (hkeep : op.KeepsPositions c) : ∃ c', c.step op = .ok c' ∧ Numbered c' := by
  obtain ⟨c, p, H, rfl, h⟩ := h
  have hsame : Numbered (c.cut H) := ⟨c, p, H, rfl, h⟩
  cases op with
  | append a x =>
    refine hsame.alloc fun ha => ?_
    obtain ⟨rc, c', p', hc', h'⟩ := h.append (mt h.isSome_iff.2 ha) hop x
    exact ⟨rc, _, hc', c', p', H, rfl, h'⟩
  | prepend a x =>
    refine hsame.alloc fun ha => ?_
    obtain ⟨rc, c', p', H', hc', h'⟩ := h.prepend (mt h.isSome_iff.2 ha) hop (hkeep.resolve_left ha)
    exact ⟨rc, _, hc', c', p', H', rfl, h'⟩
  | insertSorted a x =>
    refine hsame.alloc fun ha => ?_
    obtain ⟨rc, c', p', H', hc', h'⟩ :=
      h.insertSorted (mt h.isSome_iff.2 ha) hop (hkeep.resolve_left ha)
    exact ⟨rc, _, hc', c', p', H', rfl, h'⟩
  | remove x =>
    obtain ⟨rc, c', p', H', hc', h'⟩ := h.remove hkeep
    exact ⟨_, by rw [DicoList.step, hc', ok_bind], c', p', H', rfl, h'⟩
  | iterator k =>
    obtain ⟨c', p', hc', h'⟩ := h.attach k
    exact ⟨_, rfl, c', p', H, hc', h'⟩
  | first k =>
    obtain ⟨y, c', p', hc', h'⟩ := h.iteratorFirst k
    exact ⟨_, by rw [DicoList.step, hc', ok_bind], c', p', H, rfl, h'⟩
  | next k =>
    obtain ⟨y, c', p', hc', h'⟩ := h.iteratorNext hkeep
    exact ⟨_, by rw [DicoList.step, hc', ok_bind], c', p', H, rfl, h'⟩
  | destroy k =>
    refine ⟨_, rfl, c.detach k, _, H, rfl, detach_refines h.refines k, h.cut_mem,
      fun q hq => h.standing q (List.mem_of_mem_filter hq), h.small,
      fun q hq => h.right q (List.mem_of_mem_filter hq)⟩
  | pop => exact hop.elim
  | removeCurrent k => exact hop.elim
  | clear => exact hop.elim
  | prev k => exact hop.elim

/-- **One that does not keep them leaves one wrong.** -/
theorem Numbered.step_wrong (h : Numbered c) {op : ListOp α} (hop : op.Forward)
    (hkeep : ¬ op.KeepsPositions c) (hc' : c.step op = .ok c') : ¬ c'.PositionsRight := by
  obtain ⟨c, p, H, rfl, h⟩ := h
  cases op with
  | prepend a x =>
    rw [ListOp.KeepsPositions, not_or] at hkeep
    rw [DicoList.step, if_neg hkeep.1] at hc'
    obtain ⟨⟨rc, c₁⟩, hpre, heq⟩ := bind_eq_ok.1 hc'
    obtain rfl := Except.ok.inj heq
    exact h.prepend_wrong (mt h.isSome_iff.2 hkeep.1) hkeep.2 hpre
  | insertSorted a x =>
    simp only [ListOp.KeepsPositions, not_or, not_forall] at hkeep
    obtain ⟨ha, b, i, hspot, hprev, hnone⟩ := hkeep
    rw [DicoList.step, if_neg ha] at hc'
    obtain ⟨⟨rc, c₁⟩, hins, heq⟩ := bind_eq_ok.1 hc'
    obtain rfl := Except.ok.inj heq
    exact h.insertSorted_wrong (mt h.isSome_iff.2 ha) hspot hprev hnone hins
  | remove x =>
    simp only [ListOp.KeepsPositions, not_forall] at hkeep
    obtain ⟨b, hfind, hkeep⟩ := hkeep
    obtain ⟨⟨rc, c₁⟩, hrem, heq⟩ := bind_eq_ok.1 hc'
    obtain rfl := Except.ok.inj heq
    exact h.remove_wrong hfind hkeep hrem
  | next k =>
    simp only [ListOp.KeepsPositions, not_forall] at hkeep
    obtain ⟨ip, hip, hadv, b, hb, hat⟩ := hkeep
    obtain ⟨⟨y, c₁⟩, hnext, heq⟩ := bind_eq_ok.1 hc'
    obtain rfl := Except.ok.inj heq
    exact iteratorNext_wrong hip hadv hb hat hnext
  -- these keep the positions in any state
  | append a x => exact absurd trivial hkeep
  | iterator k => exact absurd trivial hkeep
  | first k => exact absurd trivial hkeep
  | destroy k => exact absurd trivial hkeep
  | pop => exact hop.elim
  | removeCurrent k => exact hop.elim
  | clear => exact hop.elim
  | prev k => exact hop.elim

/-- **A run of calls on a new list goes through with every position right
all along, exactly if no call puts an entry before the head with an
iterator there, takes one out before an iterator or without its link back,
or takes the mark off an iterator that is wrong.** -/
theorem positions_run_iff (flags : ℕ) (comp : Option (α → α → ℤ))
    (ops : List { op : ListOp α // op.Forward }) :
    Run.Safe (fun op => DicoList.step op.1) DicoList.PositionsRight ops
        (DicoList.create flags comp) ↔
      Run.Guarded (fun op => DicoList.step op.1) (fun op c => op.1.KeepsPositions c) ops
        (DicoList.create flags comp) := by
  refine Run.safe_iff_guarded Numbered ?_ (fun op c hc hkeep => hc.step op.2 hkeep)
    (fun op c c' hc hkeep hstep => hc.step_wrong op.2 hkeep hstep) (numbered_create flags comp)
  rintro _ ⟨c, p, H, rfl, h⟩
  exact h.positionsRight

/-- An iterator at the head of a list of one entry, and a second entry put
before it. -/
theorem not_forall_positionsRight :
    ¬ ∀ ops : List { op : ListOp Char // op.Forward },
      Run.Safe (fun op => DicoList.step op.1) DicoList.PositionsRight ops
        (DicoList.create 0 none) := by
  intro hall
  obtain ⟨c, hc, as, has, hright⟩ := hall
    [⟨.append 1 'a', (by decide : 1 < 2 ^ 64)⟩, ⟨.iterator 0, trivial⟩,
      ⟨.prepend 2 'b', (by decide : 2 < 2 ^ 64)⟩] _ (List.prefix_refl _)
  obtain rfl := Except.ok.inj hc
  have hpath : as = [2, 1] :=
    has.unique (show Path _ _ [2, 1] from ⟨rfl, some 1, rfl, rfl, none, rfl, trivial⟩)
  subst hpath
  have hzero := hright (0, ⟨some 1, 0, 0⟩) List.mem_cons_self rfl 1 rfl
  exact absurd hzero (by decide)

end Runs

end Dico
