import Dico.List.Links
/-!
# Where an iterator stands

The iterators of a list are kept under their users' names. What is done to
all of them is done to each, and moving one leaves the others alone; and
an iterator that stands at an item has the data of that item.
-/

namespace Dico

open Chain

variable {α : Type} {c : DicoList α} {p : PureList α} {u v : List (ℕ × α)} {a k j : ℕ} {x : α}
  {ip ip' : Iterator} {itr : List (ℕ × Iterator)}

/-- What is done to every iterator is done to the one of a name. -/
theorem lookup_mapItr (f : Iterator → Iterator) :
    (mapItr f itr).lookup k = (itr.lookup k).map f := by
  induction itr with
  | nil => rfl
  | cons q itr ih =>
    rw [mapItr, List.map_cons, List.lookup_cons, List.lookup_cons]
    cases k == q.1 with
    | true => rfl
    | false => exact ih

/-- The iterator that is moved. -/
theorem lookup_setItr (hk : itr.lookup k = some ip) : (setItr itr k ip').lookup k = some ip' := by
  induction itr with
  | nil => cases hk
  | cons q itr ih =>
    rw [setItr, List.map_cons]
    by_cases hq : q.1 = k
    · rw [if_pos hq, List.lookup_cons_self]
    · have hne : (k == q.1) = false := by
        rw [beq_eq_false_iff_ne]
        exact fun heq => hq heq.symm
      rw [List.lookup_cons, hne] at hk
      rw [if_neg hq, List.lookup_cons, hne]
      exact ih hk

theorem Refines.iteratorOf_eq (hr : Refines c p) (k : ℕ) : c.iteratorOf k = p.itr.lookup k := by
  rw [DicoList.iteratorOf, hr.itr]

/-! ## Moving -/

theorem iteratorFirst_eq (hk : c.iteratorOf k = some ip) :
    c.iteratorFirst k = c.moveTo k ⟨c.head, 0, 0⟩ := by
  rw [DicoList.iteratorFirst, hk]

/-- At the end the iterator stays. -/
theorem iteratorNext_atEnd (hk : c.iteratorOf k = some ip) (hcur : ip.cur = none) :
    c.iteratorNext k = .ok (none, c) := by
  rw [DicoList.iteratorNext, hk]
  simp only [hcur]

/-- A marked iterator loses its mark, and stays. -/
theorem iteratorNext_marked (hk : c.iteratorOf k = some ip) (hcur : ip.cur = some a)
    (hadv : ip.advanced ≠ 0) :
    c.iteratorNext k = c.moveTo k ⟨some a, 0, ip.pos⟩ := by
  rw [DicoList.iteratorNext, hk]
  simp only [hcur, if_neg hadv]

/-- Any other moves on. -/
theorem iteratorNext_eq (hk : c.iteratorOf k = some ip) (hcur : ip.cur = some a)
    (hadv : ip.advanced = 0) {e : Node α} (ha : c.heap a = some e) :
    c.iteratorNext k = c.moveTo k ⟨e.next, 0, ip.pos + 1⟩ := by
  rw [DicoList.iteratorNext, hk]
  simp only [hcur, if_pos hadv, deref_some ha, ok_bind]

/-- The data an iterator has before the items `v`. -/
theorem Refines.current_eq (hr : Refines c p) (hi : p.items = u ++ v)
    (hcur : ip.cur = first v none) : c.current ip = .ok (v.head?.map Prod.snd) := by
  cases v with
  | nil =>
    rw [DicoList.current, hcur]
    rfl
  | cons i v =>
    rw [DicoList.current, hcur]
    simp only [first, deref_some (hr.get (show p.items = u ++ (i.1, i.2) :: v from hi)), ok_bind]
    rfl

/-- An iterator moved before the items `v`. -/
theorem Refines.moveTo_eq (hr : Refines c p) (k : ℕ) (ip : Iterator) (hi : p.items = u ++ v)
    (hcur : ip.cur = first v none) :
    c.moveTo k ip = .ok (v.head?.map Prod.snd, { c with itr := setItr c.itr k ip }) ∧
      Refines { c with itr := setItr c.itr k ip } { p with itr := setItr p.itr k ip } := by
  refine ⟨?_, ⟨hr.holds, hr.head, hr.tail, hr.count, hr.flags, hr.comp, by rw [hr.itr]⟩⟩
  rw [DicoList.moveTo, hr.current_eq hi hcur, ok_bind]

/-! ## Standing at an item -/

/-- Every iterator stands at an item, or at the end. -/
def PureList.Standing (p : PureList α) : Prop :=
  ∀ q ∈ p.itr, ∀ b ∈ q.2.cur, b ∈ addrs p.items

theorem PureList.Standing.stands (h : p.Standing) (k : ℕ) : p.Stands k := by
  intro ip hip b hb
  obtain ⟨l₁, l₂, hitr, -⟩ := List.lookup_eq_some_iff.1 hip
  refine h (k, ip) ?_ b hb
  rw [hitr]
  exact List.mem_append_right _ List.mem_cons_self

/-- One iterator moved to an item. -/
theorem PureList.Standing.moveWith (h : p.Standing) {f : Iterator → Option Iterator}
    (hf : ∀ ip, (∀ b ∈ ip.cur, b ∈ addrs p.items) → ∀ ip' ∈ f ip,
      ∀ b ∈ ip'.cur, b ∈ addrs p.items) : (p.moveWith k f).Standing := by
  unfold PureList.moveWith
  cases hmove : (p.itr.lookup k).bind f with
  | none => exact h
  | some ip' =>
    obtain ⟨ip, hip, hfip⟩ := Option.bind_eq_some_iff.1 hmove
    intro q hq b hb
    obtain ⟨q', hq', rfl⟩ := List.mem_map.1 hq
    split at hb
    · exact hf ip (fun b hb => h.stands k ip hip b hb) ip' hfip b hb
    · exact h q' hq' b hb

/-- All iterators moved, and none off the items. -/
theorem PureList.Standing.mapItr (h : p.Standing) {l : List (ℕ × α)} {f : Iterator → Iterator}
    (hf : ∀ ip, (∀ b ∈ ip.cur, b ∈ addrs p.items) → ∀ b ∈ (f ip).cur, b ∈ addrs l) :
    PureList.Standing { p with items := l, itr := mapItr f p.itr } := by
  intro q hq b hb
  obtain ⟨q', hq', rfl⟩ := List.mem_map.1 hq
  exact hf q'.2 (h q' hq') b hb

@[simp] theorem increasePos_cur (after : UInt64) (ip : Iterator) :
    (ip.increasePos after).cur = ip.cur := by
  unfold Iterator.increasePos
  split_ifs
  · rfl
  · rfl

/-- Removing an item moves those that stand there on. -/
theorem PureList.Standing.removeAt (h : p.Standing) (hnd : (addrs p.items).Nodup)
    (ha : a ∈ addrs p.items) : (p.removeAt a).Standing := by
  obtain ⟨u, x, v, hi⟩ := exists_split ha
  rw [hi] at hnd
  obtain ⟨hsucc, -, herase⟩ := split_item (q := none) hnd
  refine h.mapItr fun ip hip b hb => ?_
  rw [hi, herase, addrs_append, List.mem_append]
  rw [Iterator.advance, hi, hsucc] at hb
  split_ifs at hb with hcur
  · exact .inr (mem_of_first hb)
  · have hmem := hip b hb
    rw [hi, addrs_append, addrs_cons, List.mem_append, List.mem_cons] at hmem
    rcases hmem with hu | rfl | hv
    · exact .inl hu
    · exact absurd hb hcur
    · exact .inr hv

/-- More items. -/
theorem PureList.Standing.grow (h : p.Standing) {l : List (ℕ × α)}
    (hl : ∀ b ∈ addrs p.items, b ∈ addrs l) : PureList.Standing { p with items := l } :=
  fun q hq b hb => hl b (h q hq b hb)

theorem PureList.Standing.append (h : p.Standing) (a : ℕ) (x : α) : (p.append a x).Standing := by
  unfold PureList.append
  split_ifs
  · exact h
  · refine h.grow fun b hb => ?_
    rw [addrs_append]
    exact List.mem_append_left _ hb

theorem PureList.Standing.prepend (h : p.Standing) (a : ℕ) (x : α) : (p.prepend a x).Standing := by
  unfold PureList.prepend
  split_ifs
  · exact h
  · refine h.mapItr fun ip hip b hb => ?_
    rw [increasePos_cur] at hb
    exact List.mem_cons_of_mem _ (hip b hb)

section Step

variable [DecidableEq α]

theorem PureList.Standing.insertSorted (h : p.Standing) (a : ℕ) (x : α) :
    (p.insertSorted a x).Standing := by
  unfold PureList.insertSorted
  split
  case h_1 => exact h
  case h_2 u hs =>
    refine h.grow fun b hb => ?_
    rw [spot_append hs, List.append_nil] at hb
    rw [addrs_append]
    exact List.mem_append_left _ hb
  case h_3 u i v hs =>
    refine h.mapItr fun ip hip b hb => ?_
    rw [increasePos_cur] at hb
    have hmem := hip b hb
    rw [spot_append hs, addrs_append, List.mem_append] at hmem
    rw [addrs_append, addrs_cons, List.mem_append]
    exact hmem.imp_right (List.mem_cons_of_mem a)

/-- **Every call but `dico_list_clear` leaves every iterator at an item or
at the end.** -/
theorem PureList.Standing.step (h : p.Standing) (hnd : (addrs p.items).Nodup) {op : ListOp α}
    (hop : op ≠ .clear) : (p.step op).Standing := by
  cases op with
  | append a x =>
    rw [PureList.step]
    split_ifs
    · exact h
    · exact h.append a x
  | prepend a x =>
    rw [PureList.step]
    split_ifs
    · exact h
    · exact h.prepend a x
  | insertSorted a x =>
    rw [PureList.step]
    split_ifs
    · exact h
    · exact h.insertSorted a x
  | remove x =>
    rw [PureList.step, PureList.remove]
    split
    case h_1 => exact h
    case h_2 i hi => exact h.removeAt hnd (List.mem_map_of_mem (List.mem_of_find?_eq_some hi))
  | pop =>
    rw [PureList.step, PureList.pop]
    split
    case h_1 => exact h
    case h_2 i hi => exact h.removeAt hnd (List.mem_map_of_mem (List.mem_of_getLast? hi))
  | removeCurrent k =>
    rw [PureList.step]
    split
    case h_1 => exact h
    case h_2 b hb =>
      obtain ⟨ip, hip, hcur⟩ := Option.bind_eq_some_iff.1 hb
      exact h.removeAt hnd (h.stands k ip hip b hcur)
  | clear => exact absurd rfl hop
  | iterator k =>
    rw [PureList.step]
    split_ifs
    · exact h
    · intro q hq b hb
      rcases List.mem_cons.1 hq with rfl | hq
      · exact mem_of_first hb
      · exact h q hq b hb
  | first k =>
    refine h.moveWith fun ip hip ip' hip' b hb => ?_
    obtain rfl := Option.some.inj hip'
    exact mem_of_first hb
  | next k =>
    refine h.moveWith fun ip hip ip' hip' b hb => ?_
    obtain ⟨d, hd, rfl⟩ := Option.map_eq_some_iff.1 hip'
    split_ifs at hb
    · exact (succ_pred_mem hnd (hip d hd)).1 b hb
    · exact hip b hb
  | prev k =>
    refine h.moveWith fun ip hip ip' hip' b hb => ?_
    obtain ⟨d, hd, rfl⟩ := Option.map_eq_some_iff.1 hip'
    exact (succ_pred_mem hnd (hip d hd)).2 b hb
  | destroy k => exact fun q hq => h q (List.mem_of_mem_filter hq)

end Step

end Dico
