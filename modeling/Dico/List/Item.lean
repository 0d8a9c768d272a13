import Dico.List.Filter
import Dico.List.Position
/-!
# Random access through an iterator

`dico_iterator_item` walks from where the iterator stands to the entry of
an index. Forward it gets there. On the way back it lowers the position
once before it starts to walk, so it stops one entry too early; and from
the end it does not walk at all. An iterator finds what `dico_list_item`
finds exactly as long as it is not asked for an index before its
position.
-/

namespace Dico

open Chain

variable {α : Type}

/-- `dico_list_append`. `malloc` returns an address that is a machine word
and not null. -/
def ListOp.Appends : ListOp α → Prop
  | .append a _ => 0 < a ∧ a < 2 ^ 64
  | _ => False

/-- The calls on an iterator. -/
inductive ItemOp
  | first
  | next
  | item (n : UInt64)
  deriving DecidableEq, Repr

/-- What a call does to the list. `dico_iterator_next` is not called at the
end. -/
def itemStep (k : ℕ) (op : ItemOp) (c : DicoList α) : Except Fault (DicoList α) :=
  match op with
  | .first => do
    let (_, c') ← c.iteratorFirst k
    .ok c'
  | .next =>
    if (c.iteratorOf k).bind Iterator.cur = none then .ok c
    else do
      let (_, c') ← c.iteratorNext k
      .ok c'
  | .item n => do
    let (_, c') ← c.iteratorItem k n
    .ok c'

/-- **An index below the count finds the datum that `dico_list_item`
finds.** -/
def ItemOp.Finds (k : ℕ) (op : ItemOp) (c : DicoList α) : Prop :=
  ∀ n, op = .item n → n.toNat < c.count →
    ∃ y c', c.iteratorItem k n = .ok (y, c') ∧ c.listItem n = .ok y

/-- An index below the count is not before the position, and the iterator
is not at the end. -/
def ItemOp.Ahead (k : ℕ) (op : ItemOp) (c : DicoList α) : Prop :=
  ∀ n, op = .item n → n.toNat < c.count →
    ∀ ip ∈ c.iteratorOf k, ip.cur ≠ none ∧ ip.pos ≤ n

/-! ## Where an iterator is -/

/-- The iterator of a name has come to the item of index `i`, or to the
end. -/
structure Reached (c : DicoList α) (p : PureList α) (k i : ℕ) : Prop where
  refines : Refines c p
  small : p.items.length < 2 ^ 64
  le : i ≤ p.items.length
  lookup : p.itr.lookup k = some ⟨Chain.first (p.items.drop i) none, 0, UInt64.ofNat i⟩

section Loops

variable {c : DicoList α} {p : PureList α} {i j k : ℕ} {n : UInt64}

/-- The entry of an index. -/
theorem Refines.getElem (hr : Refines c p) (hi : i < p.items.length) :
    c.heap p.items[i].1 = some ⟨Chain.first (p.items.drop (i + 1)) none,
      Chain.last none (p.items.take i), p.items[i].2⟩ := by
  refine hr.get ?_
  rw [← List.drop_eq_getElem_cons hi, List.take_append_drop]

theorem first_drop (hi : i < p.items.length) :
    Chain.first (p.items.drop i) none = some p.items[i].1 := by
  rw [List.drop_eq_getElem_cons hi]
  rfl

/-- `dico_list_item` finds the item. -/
theorem Refines.itemLoop (hr : Refines c p) {m : ℕ} (hm : i + m < p.items.length) :
    DicoList.itemLoop c.heap m (Chain.first (p.items.drop i) none) = .ok p.items[i + m].2 := by
  induction m generalizing i with
  | zero =>
    have hi : i < p.items.length := hm
    rw [first_drop hi, DicoList.itemLoop, deref_some (hr.getElem hi)]
    rfl
  | succ m ih =>
    have hi : i < p.items.length := by omega
    rw [first_drop hi, DicoList.itemLoop, deref_some (hr.getElem hi), ok_bind,
      ih (show i + 1 + m < p.items.length by omega)]
    simp only [show i + 1 + m = i + (m + 1) by omega]

theorem Refines.listItem (hr : Refines c p) (hn : n.toNat < p.items.length) :
    c.listItem n = .ok (some p.items[n.toNat].2) := by
  have hloop := hr.itemLoop (show 0 + n.toNat < p.items.length by omega)
  rw [List.drop_zero, ← hr.head] at hloop
  rw [DicoList.listItem, if_neg (by rw [hr.count]; omega), hloop, ok_bind]
  simp only [Nat.zero_add]

/-- A number below a word, as words. -/
theorem ofNat_lt_iff (hj : j < 2 ^ 64) : UInt64.ofNat j < n ↔ j < n.toNat := by
  have hofNat : (UInt64.ofNat j).toNat = j := UInt64.toNat_ofNat_of_lt hj
  rw [UInt64.lt_iff_toNat_lt, hofNat]

theorem lt_ofNat_iff (hj : j < 2 ^ 64) : n < UInt64.ofNat j ↔ n.toNat < j := by
  have hofNat : (UInt64.ofNat j).toNat = j := UInt64.toNat_ofNat_of_lt hj
  rw [UInt64.lt_iff_toNat_lt, hofNat]

/-- **The walk forward** ends at the index, or at the end. -/
theorem Refines.walkNext (hr : Refines c p) (hsmall : p.items.length < 2 ^ 64) {fuel : ℕ}
    (hj : j ≤ n.toNat) (hle : j ≤ p.items.length) (hfuel : p.items.length - j < fuel) :
    DicoList.walkNext c.heap n fuel ⟨Chain.first (p.items.drop j) none, 0, UInt64.ofNat j⟩ =
      .ok ⟨Chain.first (p.items.drop (min n.toNat p.items.length)) none, 0,
        UInt64.ofNat (min n.toNat p.items.length)⟩ := by
  induction fuel generalizing j with
  | zero => omega
  | succ fuel ih =>
    rw [DicoList.walkNext]
    rcases Nat.lt_or_ge j p.items.length with hlt | hge
    · simp only [first_drop hlt, ofNat_lt_iff (show j < 2 ^ 64 by omega)]
      split_ifs with hjn
      · have hnext := ih (j := j + 1) hjn hlt (by omega)
        rw [UInt64.ofNat_add] at hnext
        rw [deref_some (hr.getElem hlt), ok_bind]
        exact hnext
      · rw [show min n.toNat p.items.length = j by omega, first_drop hlt]
    · have hnil : p.items.drop j = [] := List.drop_eq_nil_of_le hge
      simp only [show min n.toNat p.items.length = j by omega, hnil, Chain.first]

/-- The entry before the one of an index. -/
theorem last_take (hi : i < p.items.length) :
    Chain.last none (p.items.take (i + 1)) = Chain.first (p.items.drop i) none := by
  rw [List.take_succ_eq_append_getElem hi, last_concat, first_drop hi]

/-- **The walk back**, from one entry behind the position, ends one entry
behind the index. -/
theorem Refines.walkPrev (hr : Refines c p) (hsmall : p.items.length < 2 ^ 64) {fuel : ℕ}
    (hj : n.toNat ≤ j) (hlt : j + 1 < p.items.length) (hfuel : j < fuel) :
    DicoList.walkPrev c.heap n fuel
        ⟨Chain.first (p.items.drop (j + 1)) none, 0, UInt64.ofNat j⟩ =
      .ok ⟨Chain.first (p.items.drop (n.toNat + 1)) none, 0, n⟩ := by
  induction fuel generalizing j with
  | zero => omega
  | succ fuel ih =>
    rw [DicoList.walkPrev]
    simp only [first_drop hlt, lt_ofNat_iff (show j < 2 ^ 64 by omega)]
    split_ifs with hnj
    · obtain ⟨m, rfl⟩ : ∃ m, j = m + 1 := ⟨j - 1, by omega⟩
      have hprev := ih (j := m) (by omega) (by omega) (by omega)
      have hsub : UInt64.ofNat (m + 1) - 1 = UInt64.ofNat m := by
        rw [UInt64.ofNat_add]
        exact UInt64.add_sub_cancel _ _
      rw [deref_some (hr.getElem hlt), ok_bind, last_take (by omega), hsub]
      exact hprev
    · have hjn : j = n.toNat := by omega
      subst hjn
      rw [first_drop hlt, UInt64.ofNat_toNat]

end Loops

/-! ## The calls -/

namespace Reached

variable {c : DicoList α} {p : PureList α} {i j k : ℕ} {n : UInt64}

theorem iteratorOf_eq (h : Reached c p k i) :
    c.iteratorOf k = some ⟨Chain.first (p.items.drop i) none, 0, UInt64.ofNat i⟩ :=
  (h.refines.iteratorOf_eq k).trans h.lookup

/-- The iterator moved to an index. -/
theorem moveTo (h : Reached c p k i) (hj : j ≤ p.items.length) :
    ∃ c' p', c.moveTo k ⟨Chain.first (p.items.drop j) none, 0, UInt64.ofNat j⟩ =
        .ok (p.items[j]?.map Prod.snd, c') ∧ Reached c' p' k j ∧ p'.items = p.items := by
  obtain ⟨hmove, hr'⟩ := h.refines.moveTo_eq k
    ⟨Chain.first (p.items.drop j) none, 0, UInt64.ofNat j⟩
    (List.take_append_drop j p.items).symm rfl
  rw [List.head?_drop] at hmove
  exact ⟨_, _, hmove, ⟨hr', h.small, hj, lookup_setItr h.lookup⟩, rfl⟩

theorem first (h : Reached c p k i) :
    ∃ y c' p', c.iteratorFirst k = .ok (y, c') ∧ Reached c' p' k 0 ∧ p'.items = p.items := by
  obtain ⟨c', p', hmove, h', hitems⟩ := h.moveTo (Nat.zero_le _)
  refine ⟨p.items[0]?.map Prod.snd, c', p', ?_, h', hitems⟩
  rw [iteratorFirst_eq h.iteratorOf_eq, h.refines.head]
  exact hmove

theorem next (h : Reached c p k i) (hi : i < p.items.length) :
    ∃ y c' p', c.iteratorNext k = .ok (y, c') ∧ Reached c' p' k (i + 1) ∧
      p'.items = p.items := by
  obtain ⟨c', p', hmove, h', hitems⟩ := h.moveTo (show i + 1 ≤ p.items.length from hi)
  refine ⟨p.items[i + 1]?.map Prod.snd, c', p', ?_, h', hitems⟩
  rw [iteratorNext_eq h.iteratorOf_eq (first_drop hi) rfl (h.refines.getElem hi)]
  rw [UInt64.ofNat_add] at hmove
  exact hmove

/-- Whether the iterator is at the end. -/
theorem cur_eq_none_iff (h : Reached c p k i) :
    Chain.first (p.items.drop i) none = none ↔ i = p.items.length := by
  have hle := h.le
  constructor
  · intro hnone
    by_contra hne
    rw [first_drop (show i < p.items.length by omega)] at hnone
    cases hnone
  · rintro rfl
    rw [List.drop_length]
    rfl

/-- `dico_iterator_item` from an index. -/
theorem item_eq (h : Reached c p k i) {ip : Iterator}
    (hseek : c.seekItem n ⟨Chain.first (p.items.drop i) none, 0, UInt64.ofNat i⟩ = .ok ip) :
    c.iteratorItem k n = c.moveTo k ip := by
  rw [DicoList.iteratorItem, h.iteratorOf_eq]
  simp only [hseek, ok_bind]

theorem seekItem_ahead (h : Reached c p k i) (hn : i ≤ n.toNat) (hi : i < p.items.length) :
    c.seekItem n ⟨Chain.first (p.items.drop i) none, 0, UInt64.ofNat i⟩ =
      .ok ⟨Chain.first (p.items.drop (min n.toNat p.items.length)) none, 0,
        UInt64.ofNat (min n.toNat p.items.length)⟩ := by
  have hsmall := h.small
  have hlt64 : i < 2 ^ 64 := by omega
  unfold DicoList.seekItem
  by_cases hlt : i < n.toNat
  · have hwalk := h.refines.walkNext (j := i + 1) hsmall hlt hi
      (show p.items.length - (i + 1) < c.count + 1 by rw [h.refines.count]; omega)
    rw [UInt64.ofNat_add] at hwalk
    rw [if_pos ((ofNat_lt_iff hlt64).2 hlt), first_drop hi, if_pos rfl,
      deref_some (h.refines.getElem hi), ok_bind]
    exact hwalk
  · rw [if_neg (mt (ofNat_lt_iff hlt64).1 hlt), if_neg (mt (lt_ofNat_iff hlt64).1 (by omega)),
      show min n.toNat p.items.length = i by omega]

/-- **At the position, or ahead of it**, the iterator comes to the index, or
to the end. -/
theorem item_ahead (h : Reached c p k i) (hn : i ≤ n.toNat) (hi : i < p.items.length) :
    ∃ c' p', c.iteratorItem k n = .ok (p.items[min n.toNat p.items.length]?.map Prod.snd, c') ∧
      Reached c' p' k (min n.toNat p.items.length) ∧ p'.items = p.items := by
  obtain ⟨c', p', hmove, h'⟩ := h.moveTo (min_le_right n.toNat p.items.length)
  exact ⟨c', p', (h.item_eq (h.seekItem_ahead hn hi)).trans hmove, h'⟩

theorem seekItem_back (h : Reached c p k i) (hn : n.toNat < i) (hi : i < p.items.length) :
    c.seekItem n ⟨Chain.first (p.items.drop i) none, 0, UInt64.ofNat i⟩ =
      .ok ⟨Chain.first (p.items.drop (n.toNat + 1)) none, 0, n⟩ := by
  have hsmall := h.small
  have hlt64 : i < 2 ^ 64 := by omega
  obtain ⟨j, rfl⟩ : ∃ j, i = j + 1 := ⟨i - 1, by omega⟩
  have hsub : UInt64.ofNat (j + 1) - 1 = UInt64.ofNat j := by
    rw [UInt64.ofNat_add]
    exact UInt64.add_sub_cancel _ _
  unfold DicoList.seekItem
  rw [if_neg (mt (ofNat_lt_iff hlt64).1 (by omega)), if_pos ((lt_ofNat_iff hlt64).2 hn),
    if_pos rfl, hsub]
  exact h.refines.walkPrev hsmall (by omega) hi (by rw [h.refines.count]; omega)

/-- **Behind the position** it comes to the entry after the one of the
index. -/
theorem item_back (h : Reached c p k i) (hn : n.toNat < i) (hi : i < p.items.length) :
    ∃ c', c.iteratorItem k n = .ok (p.items[n.toNat + 1]?.map Prod.snd, c') := by
  have hitems : p.items = p.items.take (n.toNat + 1) ++ p.items.drop (n.toNat + 1) :=
    (List.take_append_drop _ _).symm
  obtain ⟨hmove, -⟩ := h.refines.moveTo_eq k
    ⟨Chain.first (p.items.drop (n.toNat + 1)) none, 0, n⟩ hitems rfl
  rw [List.head?_drop] at hmove
  exact ⟨_, (h.item_eq (h.seekItem_back hn hi)).trans hmove⟩

/-- **From the end** it finds nothing. -/
theorem item_end (h : Reached c p k p.items.length) (hn : n.toNat < p.items.length) :
    ∃ c', c.iteratorItem k n = .ok (none, c') := by
  have hsmall := h.small
  have hseek : c.seekItem n ⟨Chain.first (p.items.drop p.items.length) none, 0,
      UInt64.ofNat p.items.length⟩ = .ok ⟨none, 0, UInt64.ofNat p.items.length - 1⟩ := by
    unfold DicoList.seekItem
    rw [if_neg (mt (ofNat_lt_iff hsmall).1 (by omega)), if_pos ((lt_ofNat_iff hsmall).2 hn),
      if_pos rfl, h.cur_eq_none_iff.2 rfl]
    rfl
  exact ⟨_, h.item_eq hseek⟩

/-- An index that is not below the count leaves it there, or ends the
process. -/
theorem item_beyond (h : Reached c p k p.items.length) (hn : p.items.length ≤ n.toNat)
    {y : Option α} {c' : DicoList α} (hc' : c.iteratorItem k n = .ok (y, c')) :
    ∃ p', Reached c' p' k p.items.length ∧ p'.items = p.items := by
  have hsmall := h.small
  by_cases hlt : p.items.length < n.toNat
  · have hseek : c.seekItem n ⟨Chain.first (p.items.drop p.items.length) none, 0,
        UInt64.ofNat p.items.length⟩ = .error .dangling := by
      unfold DicoList.seekItem
      rw [if_pos ((ofNat_lt_iff hsmall).2 hlt), if_pos rfl, h.cur_eq_none_iff.2 rfl]
      rfl
    rw [DicoList.iteratorItem, h.iteratorOf_eq] at hc'
    simp only [hseek, error_bind, reduceCtorEq] at hc'
  · have hseek : c.seekItem n ⟨Chain.first (p.items.drop p.items.length) none, 0,
        UInt64.ofNat p.items.length⟩ =
          .ok ⟨Chain.first (p.items.drop p.items.length) none, 0, UInt64.ofNat p.items.length⟩ := by
      unfold DicoList.seekItem
      rw [if_neg (mt (ofNat_lt_iff hsmall).1 hlt), if_neg (mt (lt_ofNat_iff hsmall).1 (by omega))]
    obtain ⟨c₁, p', hmove, h', hitems⟩ := h.moveTo le_rfl
    rw [h.item_eq hseek, hmove] at hc'
    obtain ⟨-, rfl⟩ := Prod.mk.inj (Except.ok.inj hc')
    exact ⟨p', h', hitems⟩

end Reached

/-! ## Runs -/

section Runs

variable {c c' : DicoList α} {k : ℕ} {l : List (ℕ × α)} {op : ItemOp}

/-- The iterator has come to an index of the items. -/
def Somewhere (k : ℕ) (l : List (ℕ × α)) (c : DicoList α) : Prop :=
  ∃ p i, Reached c p k i ∧ p.items = l

/-- What is asked of an index that is not before the position. -/
theorem ahead_iff {p : PureList α} {i : ℕ} {n : UInt64} (h : Reached c p k i)
    (hn : n.toNat < p.items.length) :
    (∀ ip ∈ c.iteratorOf k, ip.cur ≠ none ∧ ip.pos ≤ n) ↔ i < p.items.length ∧ i ≤ n.toNat := by
  have hsmall := h.small
  have hle := h.le
  have hofNat : (UInt64.ofNat i).toNat = i := UInt64.toNat_ofNat_of_lt (lt_of_le_of_lt hle hsmall)
  rw [h.iteratorOf_eq]
  simp only [Option.mem_def, Option.some.injEq, forall_eq', Ne, h.cur_eq_none_iff,
    UInt64.le_iff_toNat_le, hofNat]
  omega

/-- **A call that does not go back finds the right datum.** -/
theorem Somewhere.finds (h : Somewhere k l c) (hahead : op.Ahead k c) : op.Finds k c := by
  obtain ⟨p, i, h, -⟩ := h
  intro n hop hn
  have hahead := hahead n hop hn
  rw [h.refines.count] at hn
  obtain ⟨hi, hin⟩ := (ahead_iff h hn).1 hahead
  obtain ⟨c', p', hitem, -⟩ := h.item_ahead hin hi
  refine ⟨_, c', hitem, ?_⟩
  rw [h.refines.listItem hn, show min n.toNat p.items.length = n.toNat by omega,
    List.getElem?_eq_getElem hn]
  rfl

/-- **One that does goes wrong**, where the data are distinct. -/
theorem Somewhere.ahead (h : Somewhere k l c) (hnd : (l.map Prod.snd).Nodup)
    (hfinds : op.Finds k c) : op.Ahead k c := by
  obtain ⟨p, i, h, rfl⟩ := h
  intro n hop hn
  obtain ⟨y, c', hitem, hlist⟩ := hfinds n hop hn
  rw [h.refines.count] at hn
  have hle := h.le
  rw [h.refines.listItem hn] at hlist
  obtain rfl := Except.ok.inj hlist
  have hi : i < p.items.length := by
    by_contra hend
    obtain rfl : i = p.items.length := by omega
    obtain ⟨c₁, hnone⟩ := h.item_end hn
    rw [hnone] at hitem
    cases hitem
  refine (ahead_iff h hn).2 ⟨hi, ?_⟩
  by_contra hback
  -- going back it comes to the entry after the one asked for, which has other data
  obtain ⟨c₁, hwrong⟩ := h.item_back (show n.toNat < i by omega) hi
  rw [hwrong] at hitem
  have heq : (p.items.map Prod.snd)[n.toNat + 1]? = (p.items.map Prod.snd)[n.toNat]? := by
    rw [List.getElem?_map, List.getElem?_map, (Prod.mk.inj (Except.ok.inj hitem)).1,
      List.getElem?_eq_getElem hn]
    rfl
  have hlt : n.toNat + 1 < (p.items.map Prod.snd).length := by
    rw [List.length_map]
    omega
  have := (List.getElem?_inj hlt hnd).1 heq
  omega

/-- Such calls keep the iterator where its position says. -/
theorem Somewhere.step (h : Somewhere k l c) (hahead : op.Ahead k c)
    (hstep : itemStep k op c = .ok c') : Somewhere k l c' := by
  obtain ⟨p, i, h, rfl⟩ := h
  have hle := h.le
  cases op with
  | first =>
    obtain ⟨y, c₁, p', hfirst, h', hitems⟩ := h.first
    rw [itemStep, hfirst] at hstep
    obtain rfl := Except.ok.inj hstep
    exact ⟨p', 0, h', hitems⟩
  | next =>
    rw [itemStep, h.iteratorOf_eq, Option.bind_some] at hstep
    split_ifs at hstep with hend
    · obtain rfl := Except.ok.inj hstep
      exact ⟨p, i, h, rfl⟩
    · have hi : i ≠ p.items.length := fun heq => hend (h.cur_eq_none_iff.2 heq)
      obtain ⟨y, c₁, p', hnext, h', hitems⟩ := h.next (by omega)
      rw [hnext] at hstep
      obtain rfl := Except.ok.inj hstep
      exact ⟨p', i + 1, h', hitems⟩
  | item n =>
    obtain ⟨⟨y, c₁⟩, hitem, heq⟩ := bind_eq_ok.1 hstep
    obtain rfl := Except.ok.inj heq
    rcases Nat.lt_or_ge n.toNat p.items.length with hn | hn
    · obtain ⟨hi, hin⟩ := (ahead_iff h hn).1 (hahead n rfl (by rw [h.refines.count]; exact hn))
      obtain ⟨c₂, p', hitem', h', hitems⟩ := h.item_ahead hin hi
      rw [hitem'] at hitem
      obtain ⟨-, rfl⟩ := Prod.mk.inj (Except.ok.inj hitem)
      exact ⟨p', _, h', hitems⟩
    · rcases Nat.lt_or_ge i p.items.length with hi | hge
      · obtain ⟨c₂, p', hitem', h', hitems⟩ := h.item_ahead (show i ≤ n.toNat by omega) hi
        rw [hitem'] at hitem
        obtain ⟨-, rfl⟩ := Prod.mk.inj (Except.ok.inj hitem)
        exact ⟨p', _, h', hitems⟩
      · obtain rfl : i = p.items.length := by omega
        obtain ⟨p', h', hitems⟩ := h.item_beyond hn hitem
        exact ⟨p', _, h', hitems⟩

/-- A list that appends have built. -/
structure Built (c : DicoList α) (p : PureList α) : Prop where
  refines : Refines c p
  itr : p.itr = []
  small : ∀ a ∈ addrs p.items, 0 < a ∧ a < 2 ^ 64

theorem Built.step [DecidableEq α] {p : PureList α} (h : Built c p)
    (op : { op : ListOp α // op.Appends }) : ∃ c' p', c.step op.1 = .ok c' ∧ Built c' p' := by
  obtain ⟨op, hop⟩ := op
  cases op with
  | append a x =>
    obtain ⟨c', hc', hr'⟩ := step_refines h.refines (show (ListOp.append a x).Keeps p from trivial)
    refine ⟨c', _, hc', hr', ?_, ?_⟩
    · rw [PureList.step, PureList.append]
      split_ifs
      · exact h.itr
      · exact h.itr
      · exact h.itr
    · rw [PureList.step, PureList.append]
      split_ifs
      · exact h.small
      · exact h.small
      · intro b hb
        rw [addrs_append, List.mem_append] at hb
        rcases hb with hb | hb
        · exact h.small b hb
        · obtain rfl := List.mem_singleton.1 hb
          exact hop
  | _ => exact hop.elim

theorem Built.run [DecidableEq α] {p : PureList α} (h : Built c p)
    (ops : List { op : ListOp α // op.Appends }) :
    ∃ c' p', Run.run (fun op => DicoList.step op.1) ops c = .ok c' ∧ Built c' p' := by
  induction ops generalizing c p with
  | nil => exact ⟨c, p, rfl, h⟩
  | cons op ops ih =>
    obtain ⟨c₁, p₁, hc₁, h₁⟩ := h.step op
    obtain ⟨c', p', hrun, h'⟩ := ih h₁
    exact ⟨c', p', by rw [Run.run, hc₁, ok_bind, hrun], h'⟩

/-- A new iterator of such a list. -/
theorem Built.attach {p : PureList α} (h : Built c p) (k : ℕ) :
    Somewhere k p.items (c.attach k) := by
  have hr := attach_refines h.refines k
  have hlen : (0 :: addrs p.items).length ≤ 2 ^ 64 :=
    length_le_of_lt
      (List.nodup_cons.2 ⟨fun h0 => lt_irrefl 0 (h.small 0 h0).1, h.refines.holds.nodup⟩)
      (List.forall_mem_cons.2 ⟨Nat.two_pow_pos 64, fun a ha => (h.small a ha).2⟩)
  rw [h.itr, if_neg (by simp only [List.lookup_nil, Option.isSome_none, Bool.false_eq_true,
    not_false_eq_true])] at hr
  rw [List.length_cons, addrs, List.length_map] at hlen
  exact ⟨_, 0, ⟨hr, hlen, Nat.zero_le _, List.lookup_cons_self⟩, rfl⟩

end Runs

variable [DecidableEq α]

/-- **Random access through a new iterator of a list built by appends**:
calls of which none goes back find what `dico_list_item` finds; and where
the data are distinct no others do. -/
theorem items_run_iff (flags : ℕ) (comp : Option (α → α → ℤ))
    (ops : List { op : ListOp α // op.Appends }) (k : ℕ) (calls : List ItemOp) :
    ∃ c data, Run.run (fun op => DicoList.step op.1) ops (DicoList.create flags comp) = .ok c ∧
      WellFormed c data ∧
      (Run.Guarded (itemStep k) (ItemOp.Ahead k) calls (c.attach k) →
        Run.Guarded (itemStep k) (ItemOp.Finds k) calls (c.attach k)) ∧
      (data.Nodup →
        (Run.Guarded (itemStep k) (ItemOp.Finds k) calls (c.attach k) ↔
          Run.Guarded (itemStep k) (ItemOp.Ahead k) calls (c.attach k))) := by
  have hcreate : Built (DicoList.create flags comp) (PureList.create flags comp) :=
    ⟨create_refines flags comp, rfl, fun a ha => absurd ha List.not_mem_nil⟩
  obtain ⟨c, p, hrun, hbuilt⟩ := hcreate.run ops
  have h := hbuilt.attach k
  have hsuff : Run.Guarded (itemStep k) (ItemOp.Ahead k) calls (c.attach k) →
      Run.Guarded (itemStep k) (ItemOp.Finds k) calls (c.attach k) :=
    Run.Guarded.imp (Somewhere k p.items) (fun _ _ hs hahead => hs.finds hahead)
      (fun _ _ _ hs hahead hstep => hs.step hahead hstep) h
  refine ⟨c, p.items.map Prod.snd, hrun, hbuilt.refines.wellFormed, hsuff, fun hnd => ⟨?_, hsuff⟩⟩
  exact Run.Guarded.imp (Somewhere k p.items) (fun _ _ hs hfinds => hs.ahead hnd hfinds)
    (fun _ _ _ hs hfinds hstep => hs.step (hs.ahead hnd hfinds) hstep) h

/-- An iterator at the second of two entries that is asked for the first. -/
theorem not_forall_finds :
    ¬ ∀ (ops : List { op : ListOp Char // op.Appends }) (k : ℕ) (calls : List ItemOp)
        (c : DicoList Char),
      Run.run (fun op => DicoList.step op.1) ops (DicoList.create 0 none) = .ok c →
        Run.Guarded (itemStep k) (ItemOp.Finds k) calls (c.attach k) := by
  intro hall
  obtain ⟨-, hrest⟩ := hall
    [⟨.append 1 'a', (by decide : 0 < 1 ∧ 1 < 2 ^ 64)⟩,
      ⟨.append 2 'b', (by decide : 0 < 2 ∧ 2 < 2 ^ 64)⟩] 0 [.next, .item 0] _ rfl
  obtain ⟨hfinds, -⟩ := hrest _ rfl
  obtain ⟨y, c', hitem, hlist⟩ := hfinds 0 rfl (by decide)
  have hb : some 'b' = y := congrArg Prod.fst (Except.ok.inj hitem)
  have ha : some 'a' = y := Except.ok.inj hlist
  exact absurd (hb.trans ha.symm) (by decide)

end Dico
