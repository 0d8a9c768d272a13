import Dico.List.Pure
/-!
# The links of the list

A dico list refines the sequence of its items when its heap is the doubly
linked list of them and its head, tail, count and iterators agree. Every
call keeps that but one kind: a new entry before the head, by
`dico_list_prepend` or `dico_list_insert_sorted`, which leaves the old
head without a link back. An iterator that `dico_list_clear` leaves behind
is the other danger. A run keeps the links exactly when it has neither.
-/

namespace Dico

open Chain

variable {α : Type}

/-- The list is the doubly linked list of the items. -/
structure Refines (c : DicoList α) (p : PureList α) : Prop where
  holds : Holds c.heap p.items
  head : c.head = first p.items none
  tail : c.tail = last none p.items
  count : c.count = p.items.length
  flags : c.flags = p.flags
  comp : c.comp = p.comp
  itr : c.itr = p.itr

/-- **A well-formed list of the data**: the chain from the head forward is
the chain from the tail back, reversed; both end where the other starts;
it is as long as the count; and it has the data. -/
def WellFormed (c : DicoList α) (data : List α) : Prop :=
  ∃ as, Path (fun a => (c.heap a).map Node.next) c.head as ∧
    Path (fun a => (c.heap a).map Node.prev) c.tail as.reverse ∧
    (∀ a ∈ c.head, (c.heap a).map Node.prev = some none) ∧
    (∀ a ∈ c.tail, (c.heap a).map Node.next = some none) ∧
    c.count = as.length ∧ as.map (fun a => (c.heap a).map Node.data) = data.map some

variable {c c' : DicoList α} {p : PureList α} {l l₁ l₂ : List (ℕ × α)} {h : Heap α}
  {q : Option ℕ} {a b : ℕ} {x data : α}

/-- What the entries of linked items hold. -/
theorem linked_map_data (hl : Linked h q l none) :
    (addrs l).map (fun a => (h a).map Node.data) = (l.map Prod.snd).map some := by
  induction l generalizing q with
  | nil => rfl
  | cons i l ih =>
    obtain ⟨hi, hrest⟩ := hl
    simp only [addrs, List.map_cons, hi, Option.map_some]
    exact congrArg _ (ih hrest)

/-- **A list that refines its items is well formed.** -/
theorem Refines.wellFormed (hr : Refines c p) : WellFormed c (p.items.map Prod.snd) := by
  have hlink := hr.holds.linked
  refine ⟨addrs p.items, ?_, ?_, ?_, ?_, ?_, linked_map_data hlink⟩
  · rw [hr.head]
    exact hlink.path_next
  · rw [hr.tail]
    exact hlink.path_prev
  · intro a ha
    rw [hr.head] at ha
    cases hitems : p.items with
    | nil =>
      rw [hitems] at ha
      cases ha
    | cons i l =>
      rw [hitems] at ha hlink
      obtain rfl := Option.some.inj ha
      rw [hlink.1, Option.map_some]
  · intro a ha
    rw [hr.tail] at ha
    rcases List.eq_nil_or_concat p.items with hnil | ⟨l, i, hl⟩
    · rw [hnil] at ha
      cases ha
    · rw [hl, List.concat_eq_append] at hlink ha
      rw [last_concat] at ha
      obtain rfl := Option.some.inj ha
      rw [hlink.get, Option.map_some]
      rfl
  · rw [hr.count, addrs, List.length_map]

/-! ## Following pointers -/

/-- An entry that is there can be read. -/
theorem deref_some {e : Node α} (ha : h a = some e) : DicoList.deref h (some a) = .ok e := by
  rw [DicoList.deref, Option.bind_some, ha]

/-- One that is not there cannot. -/
theorem deref_none (ha : h a = none) : DicoList.deref h (some a) = .error .dangling := by
  rw [DicoList.deref, Option.bind_some, ha]

/-- An entry of an item can be given another link forward. -/
theorem storeNext_ok (ha : h a ≠ none) (v : Option ℕ) :
    DicoList.storeNext h (some a) v = .ok (putNext h (some a) v) := by
  obtain ⟨e, he⟩ := Option.ne_none_iff_exists'.1 ha
  rw [DicoList.storeNext, deref_some he]
  rfl

/-- And another link back. -/
theorem storePrev_ok (ha : h a ≠ none) (v : Option ℕ) :
    DicoList.storePrev h (some a) v = .ok (putPrev h (some a) v) := by
  obtain ⟨e, he⟩ := Option.ne_none_iff_exists'.1 ha
  rw [DicoList.storePrev, deref_some he]
  rfl

theorem Refines.isSome_iff (hr : Refines c p) : (c.heap a).isSome = true ↔ a ∈ addrs p.items := by
  rw [hr.holds.mem_iff, Option.isSome_iff_ne_none]

/-- There are no entries but those of the items. -/
theorem Refines.heap_eq_none (hr : Refines c p) (ha : a ∉ addrs p.items) : c.heap a = none := by
  by_contra hne
  exact ha (hr.holds.mem_iff.2 hne)

/-- The entry of an item. -/
theorem Refines.get (hr : Refines c p) (hi : p.items = l₁ ++ (a, x) :: l₂) :
    c.heap a = some ⟨first l₂ none, last none l₁, x⟩ := by
  have hlink := hr.holds.linked
  rw [hi] at hlink
  exact hlink.get

/-- Every address of an item splits the items. -/
theorem exists_split (ha : a ∈ addrs l) : ∃ l₁ x l₂, l = l₁ ++ (a, x) :: l₂ := by
  obtain ⟨⟨_, x⟩, hi, rfl⟩ := List.mem_map.1 ha
  obtain ⟨l₁, l₂, rfl⟩ := List.append_of_mem hi
  exact ⟨l₁, x, l₂, rfl⟩

/-! ## Adding -/

/-- **A new entry behind the tail.** -/
theorem append₀_refines (hr : Refines c p) (ha : c.heap a = none) (data : α) :
    ∃ c', c.append₀ a data = .ok c' ∧
      Refines c' { p with items := p.items ++ [(a, data)] } := by
  have hold : Holds c.heap (p.items ++ []) := by
    rw [List.append_nil]
    exact hr.holds
  have hins := hold.insert ha data
  have hlast : last none p.items ≠ some a := by
    intro heq
    exact hr.holds.mem_iff.1 (mem_of_last heq) ha
  have hcount : c.count + 1 = (p.items ++ [(a, data)]).length := by
    rw [hr.count, List.length_append, List.length_singleton]
  have htail : some a = last none (p.items ++ [(a, data)]) := by rw [last_concat]
  cases ht : c.tail with
  | none =>
    have hnil : p.items = [] := by
      by_contra hne
      obtain ⟨b, -, hl⟩ := last_mem (p := none) hne
      rw [hr.tail, hl] at ht
      cases ht
    refine ⟨{ c with
      heap := Function.update c.heap a (some ⟨none, none, data⟩),
      head := some a, tail := some a, count := c.count + 1 }, ?_,
      ⟨?_, ?_, htail, hcount, hr.flags, hr.comp, hr.itr⟩⟩
    · simp only [DicoList.append₀, DicoList.linkTail, ht, ok_bind]
    · rw [hnil] at hins ⊢
      exact hins
    · rw [hnil]
      rfl
  | some t =>
    have hlt : last none p.items = some t := hr.tail.symm.trans ht
    have hmem : t ∈ addrs p.items := mem_of_last hlt
    have hta : t ≠ a := fun heq => hr.holds.mem_iff.1 hmem (heq ▸ ha)
    have hne : Function.update c.heap a (some ⟨none, some t, data⟩) t ≠ none := by
      rw [Function.update_of_ne hta]
      exact hr.holds.mem_iff.1 hmem
    refine ⟨{ c with
      heap := putNext (Function.update c.heap a (some ⟨none, some t, data⟩)) (some t) (some a),
      tail := some a, count := c.count + 1 }, ?_,
      ⟨?_, ?_, htail, hcount, hr.flags, hr.comp, hr.itr⟩⟩
    · simp only [DicoList.append₀, DicoList.linkTail, ht, storeNext_ok hne, ok_bind]
    · rw [hlt] at hins hlast
      rw [putNext_update hlast]
      exact hins
    · show c.head = first (p.items ++ [(a, data)]) none
      rw [hr.head, first_append]
      cases hitems : p.items with
      | nil =>
        rw [hitems] at hmem
        cases hmem
      | cons i l => rfl

/-- **A new entry between two others.** -/
theorem insertBefore_refines (hr : Refines c p) (ha : c.heap a = none) (data : α) {i : ℕ × α}
    (hi : p.items = (l₁ ++ [i]) ++ (b, x) :: l₂) (n : ℕ) :
    ∃ c', c.insertBefore a b n data = .ok c' ∧
      Refines c' { p with items := (l₁ ++ [i]) ++ (a, data) :: (b, x) :: l₂,
                          itr := mapItr (Iterator.increasePos (UInt64.ofNat n - 1)) p.itr } := by
  have hget := hr.get hi
  have hlast : last none (l₁ ++ [i]) = some i.1 := last_concat
  have hmem : i.1 ∈ addrs p.items := by
    rw [hi]
    simp only [addrs_append, List.mem_append]
    exact Or.inl (Or.inr List.mem_cons_self)
  have hprev : putPrev c.heap (some b) (some a) i.1 ≠ none := by
    rw [Ne, putPrev_eq_none]
    exact hr.holds.mem_iff.1 hmem
  have hold : Holds c.heap ((l₁ ++ [i]) ++ (b, x) :: l₂) := hi ▸ hr.holds
  have hins := hold.insert ha data
  refine ⟨{ c with
    heap := Function.update (putNext (putPrev c.heap (some b) (some a)) (some i.1) (some a)) a
      (some ⟨some b, some i.1, data⟩),
    count := c.count + 1,
    itr := mapItr (Iterator.increasePos (UInt64.ofNat n - 1)) c.itr }, ?_,
    ⟨?_, ?_, ?_, ?_, hr.flags, hr.comp, ?_⟩⟩
  · simp only [DicoList.insertBefore, deref_some hget, ok_bind,
      storePrev_ok (show c.heap b ≠ none by rw [hget]; exact Option.some_ne_none _), hlast,
      storeNext_ok hprev]
  · rw [hlast] at hins
    rw [putNext_putPrev]
    exact hins
  · show c.head = first ((l₁ ++ [i]) ++ (a, data) :: (b, x) :: l₂) none
    rw [hr.head, hi]
    simp only [first_append]
    rfl
  · show c.tail = last none ((l₁ ++ [i]) ++ (a, data) :: (b, x) :: l₂)
    have hnew : last none ((l₁ ++ [i]) ++ (a, data) :: (b, x) :: l₂) = last (some b) l₂ := by
      rw [last_append]
      rfl
    rw [hr.tail, hi, hnew, last_append]
    rfl
  · show c.count + 1 = _
    rw [hr.count, hi]
    simp only [List.length_append, List.length_cons]
    omega
  · show mapItr _ c.itr = _
    rw [hr.itr]

/-- A new entry before the head of an empty list. -/
theorem prepend₀_refines (hr : Refines c p) (ha : c.heap a = none) (data : α)
    (hnil : p.items = []) :
    Refines (c.prepend₀ a data)
      { p with items := (a, data) :: p.items,
               itr := mapItr (Iterator.increasePos 0) p.itr } := by
  have hh : c.head = none := by
    rw [hr.head, hnil]
    rfl
  have ht : c.tail = none := by
    rw [hr.tail, hnil]
    rfl
  have hold : Holds c.heap ([] ++ []) := by
    have := hr.holds
    rwa [hnil] at this
  have hins := hold.insert ha data
  refine ⟨?_, rfl, ?_, ?_, hr.flags, hr.comp, ?_⟩
  · rw [hnil, DicoList.prepend₀, hh]
    exact hins
  · rw [hnil, DicoList.prepend₀, ht, if_pos rfl]
    rfl
  · show c.count + 1 = _
    rw [hr.count, List.length_cons]
  · show mapItr _ c.itr = _
    rw [hr.itr]

/-- **A new entry before a head breaks the chain back**: the old head has
no link to the new one. -/
theorem prepend₀_broken (hr : Refines c p) (ha : c.heap a = none) (data : α)
    (hne : p.items ≠ []) (d : List α) : ¬ WellFormed (c.prepend₀ a data) d := by
  rintro ⟨as, -, hback, -, -, hcount, -⟩
  -- the way back from the tail is the old one: it ends at the old head, one entry short
  have htail : (c.prepend₀ a data).tail = last none p.items := by
    obtain ⟨b, -, hl⟩ := last_mem (p := none) hne
    rw [DicoList.prepend₀, hr.tail, hl, if_neg (Option.some_ne_none b)]
  have hold : Path (fun b => ((c.prepend₀ a data).heap b).map Node.prev) (last none p.items)
      (addrs p.items).reverse := by
    refine hr.holds.linked.path_prev.congr fun b hb => ?_
    have hba : b ≠ a := by
      intro heq
      exact hr.holds.mem_iff.1 (List.mem_reverse.1 hb) (heq ▸ ha)
    simp only [DicoList.prepend₀, Function.update_of_ne hba]
  rw [htail] at hback
  have hlen := congrArg List.length (hback.unique hold)
  have hc : (c.prepend₀ a data).count = p.items.length + 1 := by
    rw [DicoList.prepend₀, hr.count]
  rw [List.length_reverse, List.length_reverse, addrs, List.length_map] at hlen
  omega

/-- What `dico_list_append` and `dico_list_prepend` compare at an end. -/
theorem equalAt_eq (hr : Refines c p) (flag : ℕ) {i : Option (ℕ × α)}
    (hi : ∀ j ∈ i, j ∈ p.items) (data : α) :
    c.equalAt flag (i.map Prod.fst) data = .ok (p.refuses flag i data) := by
  cases i with
  | none =>
    unfold DicoList.equalAt PureList.refuses
    cases c.comp <;> cases p.comp <;> rfl
  | some j =>
    unfold DicoList.equalAt PureList.refuses
    rw [hr.comp]
    cases p.comp with
    | none => rfl
    | some cmp =>
      obtain ⟨l₁, l₂, hsplit⟩ := List.append_of_mem (hi j rfl)
      have hget := hr.get hsplit
      simp only [Option.map_some, deref_some hget, ok_bind, hr.flags]
      by_cases hf : p.flags &&& flag = 0
      · simp only [hf, ne_eq, not_true_eq_false, if_false, decide_false, Bool.false_and]
      · simp only [hf, ne_eq, not_false_eq_true, if_true, decide_true, Bool.true_and]

theorem first_eq_head? : first l none = l.head?.map Prod.fst := by
  cases l with
  | nil => rfl
  | cons i l => rfl

theorem last_eq_getLast? : last none l = l.getLast?.map Prod.fst := by
  rcases List.eq_nil_or_concat l with rfl | ⟨l', i, rfl⟩
  · rfl
  · rw [List.concat_eq_append, last_concat, List.getLast?_concat, Option.map_some]

theorem append_refines (hr : Refines c p) (ha : c.heap a = none) (data : α) :
    ∃ rc c', c.append a data = .ok (rc, c') ∧ Refines c' (p.append a data) := by
  have hdup := equalAt_eq hr compareTail (i := p.items.getLast?)
    (fun j hj => List.mem_of_getLast? hj) data
  rw [← last_eq_getLast?, ← hr.tail] at hdup
  rw [DicoList.append, hdup, ok_bind, PureList.append]
  by_cases href : p.refuses compareTail p.items.getLast? data = true
  · rw [if_pos href, if_pos href]
    exact ⟨1, c, rfl, hr⟩
  · rw [if_neg href, if_neg href]
    obtain ⟨c', hc', hr'⟩ := append₀_refines hr ha data
    exact ⟨0, c', by rw [hc', ok_bind], hr'⟩

/-- What `dico_list_prepend` does. -/
theorem prepend_eq (hr : Refines c p) (a : ℕ) (data : α) :
    c.prepend a data = .ok (if p.refuses compareHead p.items.head? data then (1, c)
      else (0, c.prepend₀ a data)) := by
  have hdup := equalAt_eq hr compareHead (i := p.items.head?)
    (fun j hj => List.mem_of_mem_head? hj) data
  rw [← first_eq_head?, ← hr.head] at hdup
  rw [DicoList.prepend, hdup, ok_bind]
  by_cases href : p.refuses compareHead p.items.head? data = true
  · rw [if_pos href, if_pos href]
  · rw [if_neg href, if_neg href]

/-- Where the search for the place of new data ends. -/
def spotOf (i : ℕ) : Option (List (ℕ × α) × List (ℕ × α)) → DicoList.Spot
  | none => .taken
  | some (_, []) => .atEnd
  | some (u, (b, _) :: _) => .before b (i + u.length)

theorem spotOf_cons (i : ℕ) (j : ℕ × α) (o : Option (List (ℕ × α) × List (ℕ × α))) :
    spotOf i (o.map fun s => (j :: s.1, s.2)) = spotOf (i + 1) o := by
  match o with
  | none => rfl
  | some (u, []) => rfl
  | some (u, k :: v) =>
    show DicoList.Spot.before k.1 (i + (u.length + 1)) = .before k.1 (i + 1 + u.length)
    rw [Nat.add_assoc, Nat.add_comm 1]

section Compare

variable [DecidableEq α]

theorem Refines.cmp_eq (hr : Refines c p) : c.cmp = p.cmp := by
  rw [DicoList.cmp, hr.comp, PureList.cmp]

/-- **The loop of `_dico_list_insert_sorted`** finds the place. -/
theorem findSpot_eq (hr : Refines c p) (hl : Linked c.heap q l none) {fuel : ℕ}
    (hf : l.length < fuel) (i : ℕ) :
    c.findSpot data fuel (first l none) i = .ok (spotOf i (p.spot data l)) := by
  induction l generalizing q fuel i with
  | nil =>
    obtain ⟨f, rfl⟩ := Nat.exists_eq_add_of_lt hf
    rfl
  | cons j l ih =>
    obtain ⟨f, rfl⟩ : ∃ f, fuel = f + 1 := ⟨fuel - 1, by omega⟩
    rw [List.length_cons] at hf
    rw [show first (j :: l) none = some j.1 from rfl, DicoList.findSpot, deref_some hl.1,
      ok_bind, PureList.spot, hr.cmp_eq, hr.flags]
    by_cases hgt : 0 < p.cmp j.2 data
    · rw [if_pos hgt, if_pos hgt]
      rfl
    · rw [if_neg hgt, if_neg hgt]
      by_cases heq : p.cmp j.2 data = 0 ∧ p.flags ≠ 0
      · rw [if_pos heq, if_pos heq]
        rfl
      · rw [if_neg heq, if_neg heq, spotOf_cons]
        exact ih hl.2 (by omega) (i + 1)

/-- The two parts that make the items. -/
theorem spot_append {u v : List (ℕ × α)} (hs : p.spot data l = some (u, v)) : l = u ++ v := by
  induction l generalizing u with
  | nil =>
    obtain ⟨rfl, rfl⟩ := Prod.mk.inj (Option.some.inj hs)
    rfl
  | cons i l ih =>
    rw [PureList.spot] at hs
    split at hs
    · obtain ⟨rfl, rfl⟩ := Prod.mk.inj (Option.some.inj hs)
      rfl
    · split at hs
      · cases hs
      · obtain ⟨s, hspot, heq⟩ := Option.map_eq_some_iff.1 hs
        obtain ⟨rfl, rfl⟩ := Prod.mk.inj heq
        rw [List.cons_append, ← ih hspot]

/-- The place is before the head only if the head is greater. -/
theorem spot_ne_nil {i : ℕ × α} {u v : List (ℕ × α)} (hi : ¬ 0 < p.cmp i.2 data)
    (hs : p.spot data (i :: l) = some (u, v)) : u ≠ [] := by
  rw [PureList.spot, if_neg hi] at hs
  split at hs
  · cases hs
  · obtain ⟨s, -, heq⟩ := Option.map_eq_some_iff.1 hs
    obtain ⟨rfl, -⟩ := Prod.mk.inj heq
    exact List.cons_ne_nil _ _

/-- The search starts at the head. -/
theorem findSpot_head (hr : Refines c p) :
    c.findSpot data (c.count + 1) c.head 0 = .ok (spotOf 0 (p.spot data p.items)) := by
  rw [hr.head, hr.count]
  exact findSpot_eq hr hr.holds.linked (Nat.lt_succ_self _) 0

theorem insertSorted_refines (hr : Refines c p) (ha : c.heap a = none)
    (hkeep : ∀ i ∈ p.items.head?, ¬ 0 < p.cmp i.2 data) :
    ∃ rc c', c.insertSorted a data = .ok (rc, c') ∧ Refines c' (p.insertSorted a data) := by
  rw [DicoList.insertSorted, findSpot_head hr, ok_bind, PureList.insertSorted]
  match hs : p.spot data p.items with
  | none => exact ⟨EEXIST, c, rfl, hr⟩
  | some (u, []) =>
    obtain ⟨c', hc', hr'⟩ := append₀_refines hr ha data
    refine ⟨0, c', ?_, ?_⟩
    · simp only [spotOf, hc', ok_bind]
    · have hu := spot_append hs
      rw [List.append_nil] at hu
      rw [hu] at hr'
      exact hr'
  | some (u, (b, x) :: v) =>
    have hsplit := spot_append hs
    have hu : u ≠ [] := by
      cases hitems : p.items with
      | nil =>
        rw [hitems] at hsplit
        exact absurd hsplit.symm (List.append_ne_nil_of_right_ne_nil _ (List.cons_ne_nil _ _))
      | cons i l =>
        rw [hitems] at hs hkeep
        exact spot_ne_nil (hkeep i rfl) hs
    -- some item comes before the place, so the entry found has a link back
    obtain ⟨w, i, rfl⟩ := (List.eq_nil_or_concat u).resolve_left hu
    rw [List.concat_eq_append] at hs hsplit hu ⊢
    have hget := hr.get hsplit
    obtain ⟨c', hc', hr'⟩ := insertBefore_refines hr ha data hsplit (0 + (w ++ [i]).length)
    have hprev : last none (w ++ [i]) ≠ none := by
      rw [last_concat]
      exact Option.some_ne_none i.1
    refine ⟨0, c', ?_, ?_⟩
    · simp only [spotOf, deref_some hget, ok_bind, if_neg hprev, hc']
    · rw [Nat.zero_add] at hr'
      exact hr'

/-- Before a greater head, `dico_list_insert_sorted` is a prepend. -/
theorem insertSorted_head {i : ℕ × α} (hr : Refines c p) (hi : p.items = i :: l)
    (hgt : 0 < p.cmp i.2 data) :
    c.insertSorted a data = .ok (0, c.prepend₀ a data) := by
  have hspot : p.spot data p.items = some ([], i :: l) := by
    rw [hi, PureList.spot, if_pos hgt]
  have hget := hr.get (show p.items = [] ++ (i.1, i.2) :: l from hi)
  rw [DicoList.insertSorted, findSpot_head hr, ok_bind, hspot]
  simp only [spotOf, deref_some hget, ok_bind, last, if_true]

end Compare

/-! ## Removing -/

/-- What is behind an item, what is before it, and the rest. -/
theorem split_item (hnd : (addrs (l₁ ++ (a, x) :: l₂)).Nodup) :
    PureList.succ (l₁ ++ (a, x) :: l₂) a = first l₂ none ∧
      PureList.pred q (l₁ ++ (a, x) :: l₂) a = last q l₁ ∧
      (l₁ ++ (a, x) :: l₂).eraseP (fun i => i.1 = a) = l₁ ++ l₂ := by
  induction l₁ generalizing q with
  | nil =>
    refine ⟨if_pos rfl, if_pos rfl, ?_⟩
    rw [List.nil_append, List.eraseP_cons_of_pos (by simp only [decide_true]), List.nil_append]
  | cons i l ih =>
    obtain ⟨hmem, hnd'⟩ := List.nodup_cons.1 hnd
    have hne : i.1 ≠ a := by
      intro heq
      have hin : a ∈ addrs (l ++ (a, x) :: l₂) := by
        rw [addrs_append, addrs_cons]
        exact List.mem_append_right _ List.mem_cons_self
      exact hmem (heq ▸ hin)
    obtain ⟨hsucc, hpred, herase⟩ := ih (q := some i.1) hnd'
    refine ⟨(if_neg hne).trans hsucc, (if_neg hne).trans hpred, ?_⟩
    rw [List.cons_append, List.eraseP_cons_of_neg (by simp only [hne, decide_false, reduceCtorEq,
      not_false_eq_true]), herase, List.cons_append]

/-- The entry before the one that goes is linked to the one behind it. -/
theorem unlinkNext_eq (ha : c.heap a = some ⟨first l₂ none, last none l₁, x⟩)
    (hhead : c.head = first (l₁ ++ (a, x) :: l₂) none) (hin : ∀ b ∈ addrs l₁, c.heap b ≠ none) :
    c.unlinkNext ⟨first l₂ none, last none l₁, x⟩ = .ok { c with
      heap := putNext c.heap (last none l₁) (first l₂ none),
      head := first (l₁ ++ l₂) none } := by
  rcases List.eq_nil_or_concat l₁ with rfl | ⟨l, i, rfl⟩
  · have hhead : c.head = some a := hhead
    simp only [last, DicoList.unlinkNext, hhead, deref_some ha, ok_bind, putNext,
      List.nil_append]
  · rw [List.concat_eq_append] at ha hhead hin ⊢
    have hlast : last none (l ++ [i]) = some i.1 := last_concat
    have hsame : c.head = first ((l ++ [i]) ++ l₂) none := by
      rw [hhead]
      simp only [first_append]
      rfl
    simp only [hlast, DicoList.unlinkNext, storeNext_ok (hin i.1 (mem_of_last hlast)), ok_bind,
      ← hsame]

/-- The entry behind the one that goes is linked back to the one before
it. -/
theorem unlinkPrev_eq {e : Node α} (he : c.heap a = some e) (hnext : e.next = first l₂ none)
    (hin : ∀ b ∈ addrs l₂, c.heap b ≠ none) (htail : c.tail = last none (l₁ ++ (a, x) :: l₂)) :
    c.unlinkPrev a (last none l₁) = .ok { c with
      heap := putPrev c.heap (first l₂ none) (last none l₁),
      tail := last none (l₁ ++ l₂) } := by
  rw [DicoList.unlinkPrev, deref_some he, ok_bind, hnext]
  cases l₂ with
  | nil =>
    rw [List.append_nil]
    rfl
  | cons i l =>
    have hsame : c.tail = last none (l₁ ++ i :: l) := by
      rw [htail, last_append, last_append]
      rfl
    simp only [first, storePrev_ok (hin i.1 List.mem_cons_self), ok_bind, ← hsame]

/-- What `_dico_list_remove_item` does with an entry between the items `l₁`
and the items `l₂`. -/
theorem removeItem_eq (ha : c.heap a = some ⟨first l₂ none, last none l₁, x⟩)
    (hhead : c.head = first (l₁ ++ (a, x) :: l₂) none)
    (htail : c.tail = last none (l₁ ++ (a, x) :: l₂))
    (hin : ∀ b ∈ addrs (l₁ ++ l₂), c.heap b ≠ none) (hmem : a ∉ addrs l₁) :
    c.removeItem a = .ok (x, { c with
      heap := Function.update
        (putPrev (putNext c.heap (last none l₁) (first l₂ none)) (first l₂ none) (last none l₁))
        a none,
      count := c.count - 1,
      head := first (l₁ ++ l₂) none,
      tail := last none (l₁ ++ l₂),
      itr := mapItr (Iterator.advance a (first l₂ none)) c.itr }) := by
  rw [addrs_append] at hin
  have hne : last none l₁ ≠ some a := fun heq => hmem (mem_of_last heq)
  have hnext := unlinkNext_eq
    (c := { c with itr := mapItr (Iterator.advance a (first l₂ none)) c.itr })
    ha hhead fun b hb => hin b (List.mem_append_left _ hb)
  -- the entry itself is still linked forward when the one behind it is relinked
  have hprev := unlinkPrev_eq (c := { c with
      heap := putNext c.heap (last none l₁) (first l₂ none),
      head := first (l₁ ++ l₂) none,
      itr := mapItr (Iterator.advance a (first l₂ none)) c.itr })
    ((putNext_of_ne hne).trans ha) rfl (fun b hb => by
      rw [Ne, putNext_eq_none]
      exact hin b (List.mem_append_right _ hb)) htail
  rw [DicoList.removeItem, deref_some ha, ok_bind]
  simp only [hnext, ok_bind, hprev]

/-- Around an entry there are others, and it is not one of them. -/
theorem Refines.around (hr : Refines c p) (hi : p.items = l₁ ++ (a, x) :: l₂) :
    (∀ b ∈ addrs (l₁ ++ l₂), c.heap b ≠ none) ∧ a ∉ addrs l₁ := by
  have hholds := hr.holds
  rw [hi] at hholds
  have hnd := hholds.nodup
  rw [addrs_append, addrs_cons, List.nodup_append] at hnd
  refine ⟨fun b hb => hholds.mem_iff.1 ?_, fun hmem => hnd.2.2 a hmem a List.mem_cons_self rfl⟩
  rw [addrs_append, List.mem_append] at hb ⊢
  exact hb.imp_right (List.mem_cons_of_mem a)

/-- **An entry taken out.** -/
theorem removeItem_refines (hr : Refines c p) (hi : p.items = l₁ ++ (a, x) :: l₂) :
    ∃ c', c.removeItem a = .ok (x, c') ∧ Refines c' (p.removeAt a) := by
  obtain ⟨hin, hmem⟩ := hr.around hi
  have hholds := hr.holds
  have hhead := hr.head
  have htail := hr.tail
  rw [hi] at hholds hhead htail
  obtain ⟨hsucc, -, herase⟩ := split_item (q := none) hholds.nodup
  refine ⟨_, removeItem_eq (hr.get hi) hhead htail hin hmem, ?_, ?_, ?_, ?_, hr.flags, hr.comp, ?_⟩
  · simp only [PureList.removeAt, hi, herase]
    exact hholds.remove
  · simp only [PureList.removeAt, hi, herase]
  · simp only [PureList.removeAt, hi, herase]
  · simp only [PureList.removeAt, hi, herase, hr.count, List.length_append, List.length_cons]
    omega
  · simp only [PureList.removeAt, hi, hsucc, hr.itr]

/-- The same, by the address. -/
theorem removeItem_mem (hr : Refines c p) (ha : a ∈ addrs p.items) :
    ∃ y c', c.removeItem a = .ok (y, c') ∧ Refines c' (p.removeAt a) := by
  obtain ⟨l₁, x, l₂, hi⟩ := exists_split ha
  obtain ⟨c', hc'⟩ := removeItem_refines hr hi
  exact ⟨x, c', hc'⟩

/-- The loop of `dico_list_clear` frees the entries. -/
theorem freeAll_eq (hl : Linked h q l none) (hnd : (addrs l).Nodup)
    (honly : ∀ a, h a ≠ none → a ∈ addrs l) {fuel : ℕ} (hf : l.length < fuel) :
    DicoList.freeAll fuel h (first l none) = .ok fun _ => none := by
  induction l generalizing h q fuel with
  | nil =>
    obtain ⟨f, rfl⟩ : ∃ f, fuel = f + 1 := ⟨fuel - 1, by omega⟩
    have hnone : h = fun _ => none := by
      funext a
      by_contra hne
      cases honly a hne
    rw [hnone]
    rfl
  | cons i l ih =>
    obtain ⟨f, rfl⟩ : ∃ f, fuel = f + 1 := ⟨fuel - 1, by omega⟩
    obtain ⟨hi, hrest⟩ := hl
    obtain ⟨hmem, hnd'⟩ := List.nodup_cons.1 hnd
    rw [List.length_cons] at hf
    rw [show first (i :: l) none = some i.1 from rfl, DicoList.freeAll, deref_some hi, ok_bind]
    -- the entries behind are untouched by the `free`, and are all there is now
    refine ih (hrest.congr fun b hb => Function.update_of_ne (fun heq : b = i.1 => hmem ?_) _ _)
      hnd' (fun b hb => ?_) (by omega)
    · rw [← heq]
      exact hb
    · have hbi : b ≠ i.1 := by
        intro heq
        rw [heq, Function.update_self] at hb
        exact hb rfl
      rw [Function.update_of_ne hbi] at hb
      exact (List.mem_cons.1 (honly b hb)).resolve_left hbi

theorem clear_refines (hr : Refines c p) :
    ∃ c', c.clear = .ok c' ∧ Refines c' { p with items := [] } := by
  have hfree := freeAll_eq hr.holds.linked hr.holds.nodup hr.holds.only
    (Nat.lt_succ_self p.items.length)
  refine ⟨{ c with heap := fun _ => none, head := none, tail := none, count := 0 }, ?_,
    ⟨holds_nil, rfl, rfl, rfl, hr.flags, hr.comp, hr.itr⟩⟩
  rw [DicoList.clear, hr.head, hr.count, hfree, ok_bind]

theorem pop_refines (hr : Refines c p) :
    ∃ y c', c.pop = .ok (y, c') ∧ Refines c' p.pop := by
  rcases List.eq_nil_or_concat p.items with hnil | ⟨l, i, hl⟩
  · refine ⟨none, c, ?_, ?_⟩
    · rw [DicoList.pop, hr.tail, hnil]
      rfl
    · rw [PureList.pop, hnil]
      exact hr
  · rw [List.concat_eq_append] at hl
    obtain ⟨c', hc', hr'⟩ := removeItem_refines hr hl
    have htail : c.tail = some i.1 := by rw [hr.tail, hl, last_concat]
    refine ⟨some i.2, c', ?_, ?_⟩
    · simp only [DicoList.pop, htail, hc', ok_bind]
    · rw [PureList.pop, hl, List.getLast?_concat]
      exact hr'

section Find

variable [DecidableEq α]

/-- **The loop of `_dico_list_remove`** finds the first item. -/
theorem findEntry_eq (data : α) (hr : Refines c p) (hl : Linked c.heap q l none) {fuel : ℕ}
    (hf : l.length < fuel) :
    c.findEntry data fuel (first l none) =
      .ok ((l.find? fun i => p.cmp i.2 data = 0).map Prod.fst) := by
  induction l generalizing q fuel with
  | nil =>
    obtain ⟨f, rfl⟩ : ∃ f, fuel = f + 1 := ⟨fuel - 1, by omega⟩
    rfl
  | cons j l ih =>
    obtain ⟨f, rfl⟩ : ∃ f, fuel = f + 1 := ⟨fuel - 1, by omega⟩
    rw [List.length_cons] at hf
    rw [show first (j :: l) none = some j.1 from rfl, DicoList.findEntry, deref_some hl.1,
      ok_bind, hr.cmp_eq, List.find?_cons]
    by_cases heq : p.cmp j.2 data = 0
    · simp only [heq, if_true, decide_true, Option.map_some]
    · simp only [heq, if_false, decide_false]
      exact ih hl.2 (by omega)

theorem remove_refines (hr : Refines c p) (data : α) :
    ∃ rc c', c.remove data = .ok (rc, c') ∧ Refines c' (p.remove data) := by
  have hfind := findEntry_eq data hr hr.holds.linked (Nat.lt_succ_self _)
  rw [DicoList.remove, hr.head, hr.count, hfind, ok_bind, PureList.remove]
  cases hs : p.items.find? (fun i => p.cmp i.2 data = 0) with
  | none => exact ⟨1, c, rfl, hr⟩
  | some i =>
    have hmem : i.1 ∈ addrs p.items := List.mem_map_of_mem (List.mem_of_find?_eq_some hs)
    obtain ⟨y, c', hc', hr'⟩ := removeItem_mem hr hmem
    exact ⟨0, c', by simp only [Option.map_some, hc', ok_bind], hr'⟩

end Find

/-! ## Iterators -/

/-- The iterator of a name, if there is one, stands at an item or at the
end. -/
def PureList.Stands (p : PureList α) (k : ℕ) : Prop :=
  ∀ ip ∈ p.itr.lookup k, ∀ b ∈ ip.cur, b ∈ addrs p.items

/-- An iterator moved to an item or to the end. -/
theorem moveTo_refines (hr : Refines c p) (k : ℕ) {ip : Iterator}
    (hip : ∀ b ∈ ip.cur, b ∈ addrs p.items) :
    ∃ y c', c.moveTo k ip = .ok (y, c') ∧ Refines c' { p with itr := setItr p.itr k ip } := by
  have hr' : Refines { c with itr := setItr c.itr k ip } { p with itr := setItr p.itr k ip } :=
    ⟨hr.holds, hr.head, hr.tail, hr.count, hr.flags, hr.comp, by rw [hr.itr]⟩
  rw [DicoList.moveTo, DicoList.current]
  cases hcur : ip.cur with
  | none => exact ⟨none, _, rfl, hr'⟩
  | some b =>
    obtain ⟨l₁, x, l₂, hi⟩ := exists_split (hip b hcur)
    exact ⟨some x, { c with itr := setItr c.itr k ip },
      by simp only [deref_some (hr.get hi), ok_bind], hr'⟩

theorem iteratorFirst_refines (hr : Refines c p) (k : ℕ) :
    ∃ y c', c.iteratorFirst k = .ok (y, c') ∧
      Refines c' (p.moveWith k fun _ => some ⟨first p.items none, 0, 0⟩) := by
  rw [DicoList.iteratorFirst, DicoList.iteratorOf, hr.itr, PureList.moveWith]
  cases p.itr.lookup k with
  | none => exact ⟨none, c, rfl, hr⟩
  | some ip =>
    rw [← hr.head]
    refine moveTo_refines hr k fun b hb => mem_of_first (hr.head.symm.trans ?_)
    exact hb

/-- The neighbours of an item. -/
theorem succ_pred_mem (hnd : (addrs l).Nodup) (ha : a ∈ addrs l) :
    (∀ b ∈ PureList.succ l a, b ∈ addrs l) ∧ ∀ b ∈ PureList.pred none l a, b ∈ addrs l := by
  obtain ⟨l₁, x, l₂, rfl⟩ := exists_split ha
  obtain ⟨hsucc, hpred, -⟩ := split_item (q := none) hnd
  rw [hsucc, hpred, addrs_append, addrs_cons]
  exact ⟨fun b hb => List.mem_append_right _ (List.mem_cons_of_mem _ (mem_of_first hb)),
    fun b hb => List.mem_append_left _ (mem_of_last hb)⟩

/-- What the entry of an item has in its links. -/
theorem Refines.get_mem (hr : Refines c p) (ha : a ∈ addrs p.items) :
    ∃ x, c.heap a = some ⟨PureList.succ p.items a, PureList.pred none p.items a, x⟩ := by
  obtain ⟨l₁, x, l₂, hi⟩ := exists_split ha
  have hnd := hr.holds.nodup
  rw [hi] at hnd
  obtain ⟨hsucc, hpred, -⟩ := split_item (q := none) hnd
  refine ⟨x, ?_⟩
  rw [hr.get hi, hi, hsucc, hpred]

/-- An entry that is gone stops an iterator. -/
theorem moveTo_dangling {k : ℕ} {ip : Iterator} (hcur : ip.cur = some b) (hb : c.heap b = none) :
    c.moveTo k ip = .error .dangling := by
  rw [DicoList.moveTo, DicoList.current, hcur]
  simp only [deref_none hb, error_bind]

theorem iteratorNext_refines (hr : Refines c p) {k : ℕ} (hk : p.Stands k) :
    ∃ y c', c.iteratorNext k = .ok (y, c') ∧ Refines c' (p.moveWith k p.nextOf) := by
  rw [DicoList.iteratorNext, DicoList.iteratorOf, hr.itr, PureList.moveWith]
  cases hlook : p.itr.lookup k with
  | none => exact ⟨none, c, rfl, hr⟩
  | some ip =>
    rw [Option.bind_some, PureList.nextOf]
    cases hcur : ip.cur with
    | none => exact ⟨none, c, by simp only [hcur], hr⟩
    | some b =>
      have hb := hk ip hlook b hcur
      obtain ⟨x, hget⟩ := hr.get_mem hb
      simp only [hcur, Option.map_some]
      by_cases hadv : ip.advanced = 0
      · simp only [hadv, if_true, deref_some hget, ok_bind]
        exact moveTo_refines hr k (succ_pred_mem hr.holds.nodup hb).1
      · simp only [hadv, if_false]
        refine moveTo_refines hr k fun b' hb' => ?_
        obtain rfl := Option.some.inj hb'
        exact hb

theorem iteratorNext_dangling (hr : Refines c p) {k : ℕ} {ip : Iterator}
    (hlook : p.itr.lookup k = some ip) (hcur : ip.cur = some b) (hb : c.heap b = none) :
    c.iteratorNext k = .error .dangling := by
  rw [DicoList.iteratorNext, DicoList.iteratorOf, hr.itr, hlook]
  simp only [hcur]
  by_cases hadv : ip.advanced = 0
  · rw [if_pos hadv, deref_none hb, error_bind]
  · rw [if_neg hadv]
    exact moveTo_dangling rfl hb

theorem iteratorPrev_refines (hr : Refines c p) {k : ℕ} (hk : p.Stands k) :
    ∃ y c', c.iteratorPrev k = .ok (y, c') ∧ Refines c' (p.moveWith k p.prevOf) := by
  rw [DicoList.iteratorPrev, DicoList.iteratorOf, hr.itr, PureList.moveWith]
  cases hlook : p.itr.lookup k with
  | none => exact ⟨none, c, rfl, hr⟩
  | some ip =>
    rw [Option.bind_some, PureList.prevOf]
    cases hcur : ip.cur with
    | none => exact ⟨none, c, by simp only [hcur], hr⟩
    | some b =>
      have hb := hk ip hlook b hcur
      obtain ⟨x, hget⟩ := hr.get_mem hb
      simp only [hcur, Option.map_some, deref_some hget, ok_bind]
      exact moveTo_refines hr k (succ_pred_mem hr.holds.nodup hb).2

theorem iteratorPrev_dangling (hr : Refines c p) {k : ℕ} {ip : Iterator}
    (hlook : p.itr.lookup k = some ip) (hcur : ip.cur = some b) (hb : c.heap b = none) :
    c.iteratorPrev k = .error .dangling := by
  rw [DicoList.iteratorPrev, DicoList.iteratorOf, hr.itr, hlook]
  simp only [hcur, deref_none hb, error_bind]

theorem attach_refines (hr : Refines c p) (k : ℕ) :
    Refines (c.attach k) (if (p.itr.lookup k).isSome then p
      else { p with itr := (k, ⟨first p.items none, 0, 0⟩) :: p.itr }) := by
  rw [DicoList.attach, DicoList.iteratorOf, hr.itr]
  by_cases hk : (p.itr.lookup k).isSome = true
  · rw [if_pos hk, if_pos hk]
    exact hr
  · rw [if_neg hk, if_neg hk]
    exact ⟨hr.holds, hr.head, hr.tail, hr.count, hr.flags, hr.comp, by rw [hr.head]⟩

theorem detach_refines (hr : Refines c p) (k : ℕ) :
    Refines (c.detach k) { p with itr := p.itr.filter fun q => q.1 ≠ k } :=
  ⟨hr.holds, hr.head, hr.tail, hr.count, hr.flags, hr.comp, by rw [DicoList.detach, hr.itr]⟩

/-! ## Runs -/

/-- The new list. -/
theorem create_refines (flags : ℕ) (comp : Option (α → α → ℤ)) :
    Refines (DicoList.create flags comp) (PureList.create flags comp) :=
  ⟨holds_nil, rfl, rfl, rfl, rfl, rfl, rfl⟩

/-- What the pair of a list and its items is asked for. -/
def Tracks (s : DicoList α × PureList α) : Prop := WellFormed s.1 (s.2.items.map Prod.snd)

/-- A call of a function that allocates, on an address that is free or
not. -/
theorem alloc_refines {f : Except Fault (ℕ × DicoList α)} {p' : PureList α} (hr : Refines c p)
    (hf : c.heap a = none → ∃ rc c', f = .ok (rc, c') ∧ Refines c' p') :
    ∃ c', (if (c.heap a).isSome then .ok c else do
        let (_, c') ← f
        .ok c') = Except.ok c' ∧ Refines c' (if a ∈ addrs p.items then p else p') := by
  by_cases ha : a ∈ addrs p.items
  · exact ⟨c, by rw [if_pos (hr.isSome_iff.2 ha)], by rw [if_pos ha]; exact hr⟩
  · obtain ⟨rc, c', rfl, hr'⟩ := hf (hr.heap_eq_none ha)
    exact ⟨c', by rw [if_neg (mt hr.isSome_iff.1 ha), ok_bind], by rw [if_neg ha]; exact hr'⟩

/-- An iterator that does not stand at an entry of the list. -/
theorem not_stands (hr : Refines c p) {k : ℕ} (hk : ¬ p.Stands k) :
    ∃ ip b, p.itr.lookup k = some ip ∧ ip.cur = some b ∧ c.heap b = none := by
  simp only [PureList.Stands, not_forall] at hk
  obtain ⟨ip, hlook, b, hcur, hb⟩ := hk
  exact ⟨ip, b, hlook, hcur, hr.heap_eq_none hb⟩

variable [DecidableEq α]

/-- When a call keeps the links: a new entry does not come before a head,
and the iterator used stands at an entry of the list. -/
def ListOp.Keeps (p : PureList α) : ListOp α → Prop
  | .prepend a data =>
    p.items = [] ∨ a ∈ addrs p.items ∨ p.refuses compareHead p.items.head? data = true
  | .insertSorted a data =>
    a ∈ addrs p.items ∨ ∀ i ∈ p.items.head?, ¬ 0 < p.cmp i.2 data
  | .removeCurrent k => p.Stands k
  | .next k => p.Stands k
  | .prev k => p.Stands k
  | _ => True

/-- **A call that keeps the links goes through on the list as on the
sequence.** -/
theorem step_refines (hr : Refines c p) {op : ListOp α} (hk : op.Keeps p) :
    ∃ c', c.step op = .ok c' ∧ Refines c' (p.step op) := by
  cases op with
  | append a data => exact alloc_refines hr fun ha => append_refines hr ha data
  | prepend a data =>
    refine alloc_refines hr fun ha => ?_
    rw [prepend_eq hr, PureList.prepend]
    by_cases href : p.refuses compareHead p.items.head? data = true
    · rw [if_pos href, if_pos href]
      exact ⟨1, c, rfl, hr⟩
    · -- not refused, on an address that is free: the list must have been empty
      rw [if_neg href, if_neg href]
      refine ⟨0, c.prepend₀ a data, rfl, prepend₀_refines hr ha data ?_⟩
      rcases hk with hnil | hmem | href'
      · exact hnil
      · exact absurd ha (hr.holds.mem_iff.1 hmem)
      · exact absurd href' href
  | insertSorted a data =>
    refine alloc_refines hr fun ha => insertSorted_refines hr ha ?_
    rcases hk with hmem | hle
    · exact absurd ha (hr.holds.mem_iff.1 hmem)
    · exact hle
  | remove data =>
    obtain ⟨rc, c', hc', hr'⟩ := remove_refines hr data
    exact ⟨c', by rw [DicoList.step, hc', ok_bind], hr'⟩
  | pop =>
    obtain ⟨y, c', hc', hr'⟩ := pop_refines hr
    exact ⟨c', by rw [DicoList.step, hc', ok_bind], hr'⟩
  | removeCurrent k =>
    rw [DicoList.step, DicoList.iteratorOf, hr.itr, PureList.step]
    cases hlook : p.itr.lookup k with
    | none => exact ⟨c, rfl, hr⟩
    | some ip =>
      rw [Option.bind_some]
      cases hcur : ip.cur with
      | none => exact ⟨c, rfl, hr⟩
      | some b =>
        obtain ⟨y, c', hc', hr'⟩ := removeItem_mem hr (hk ip hlook b hcur)
        refine ⟨c', ?_, hr'⟩
        rw [if_neg (Option.some_ne_none b), DicoList.removeCurrent, DicoList.iteratorOf, hr.itr,
          hlook]
        simp only [hcur, hc', ok_bind]
  | clear => exact clear_refines hr
  | iterator k => exact ⟨c.attach k, rfl, attach_refines hr k⟩
  | first k =>
    obtain ⟨y, c', hc', hr'⟩ := iteratorFirst_refines hr k
    exact ⟨c', by rw [DicoList.step, hc', ok_bind], hr'⟩
  | next k =>
    obtain ⟨y, c', hc', hr'⟩ := iteratorNext_refines hr hk
    exact ⟨c', by rw [DicoList.step, hc', ok_bind], hr'⟩
  | prev k =>
    obtain ⟨y, c', hc', hr'⟩ := iteratorPrev_refines hr hk
    exact ⟨c', by rw [DicoList.step, hc', ok_bind], hr'⟩
  | destroy k => exact ⟨c.detach k, rfl, detach_refines hr k⟩

/-- **A call that does not keep them fails or breaks them.** -/
theorem step_breaks (hr : Refines c p) {op : ListOp α} (hk : ¬ op.Keeps p)
    (hc' : c.step op = .ok c') (d : List α) : ¬ WellFormed c' d := by
  cases op with
  | prepend a data =>
    simp only [ListOp.Keeps, not_or] at hk
    obtain ⟨hne, hfree, href⟩ := hk
    rw [DicoList.step, if_neg (mt hr.isSome_iff.1 hfree), prepend_eq hr, ok_bind,
      if_neg href] at hc'
    obtain rfl := Except.ok.inj hc'
    exact prepend₀_broken hr (hr.heap_eq_none hfree) data hne d
  | insertSorted a data =>
    simp only [ListOp.Keeps, not_or, not_forall, not_not] at hk
    obtain ⟨hfree, i, hhead, hgt⟩ := hk
    obtain ⟨l, hl⟩ := List.head?_eq_some_iff.1 hhead
    rw [DicoList.step, if_neg (mt hr.isSome_iff.1 hfree), insertSorted_head hr hl hgt,
      ok_bind] at hc'
    obtain rfl := Except.ok.inj hc'
    have hne : p.items ≠ [] := by
      rw [hl]
      exact List.cons_ne_nil _ _
    exact prepend₀_broken hr (hr.heap_eq_none hfree) data hne d
  | removeCurrent k =>
    -- `_dico_list_remove_item` reads the links of the entry that was freed
    obtain ⟨ip, b, hlook, hcur, hb⟩ := not_stands hr hk
    rw [DicoList.step, DicoList.iteratorOf, hr.itr, hlook, Option.bind_some, hcur,
      if_neg (Option.some_ne_none b), DicoList.removeCurrent, DicoList.iteratorOf, hr.itr,
      hlook] at hc'
    simp only [hcur, DicoList.removeItem, deref_none hb, error_bind, reduceCtorEq] at hc'
  | next k =>
    obtain ⟨ip, b, hlook, hcur, hb⟩ := not_stands hr hk
    rw [DicoList.step, iteratorNext_dangling hr hlook hcur hb, error_bind] at hc'
    cases hc'
  | prev k =>
    obtain ⟨ip, b, hlook, hcur, hb⟩ := not_stands hr hk
    rw [DicoList.step, iteratorPrev_dangling hr hlook hcur hb, error_bind] at hc'
    cases hc'
  | append a data => exact absurd trivial hk
  | remove data => exact absurd trivial hk
  | pop => exact absurd trivial hk
  | clear => exact absurd trivial hk
  | iterator k => exact absurd trivial hk
  | first k => exact absurd trivial hk
  | destroy k => exact absurd trivial hk

/-- **A run of calls on a new list goes through, with the list a well-formed
doubly linked list of the data of the sequence all along, exactly if no
call puts an entry before a head or follows an iterator to an entry that
is gone.** -/
theorem list_run_wellFormed_iff (flags : ℕ) (comp : Option (α → α → ℤ)) (ops : List (ListOp α)) :
    Run.Safe stepBoth Tracks ops (DicoList.create flags comp, PureList.create flags comp) ↔
      Run.Guarded stepBoth (fun op s => op.Keeps s.2) ops
        (DicoList.create flags comp, PureList.create flags comp) := by
  refine Run.safe_iff_guarded (fun s : DicoList α × PureList α => Refines s.1 s.2)
    (fun s hs => hs.wellFormed)
    (fun op s hs hk => ?_) (fun op s s' hs hk hstep => ?_) (create_refines flags comp)
  · obtain ⟨c', hc', hr'⟩ := step_refines hs hk
    exact ⟨(c', s.2.step op), by rw [stepBoth, hc', ok_bind], hr'⟩
  · obtain ⟨c', hc', hs'⟩ := bind_eq_ok.1 hstep
    obtain rfl := Except.ok.inj hs'
    exact step_breaks hs hk hc' _

/-- A second entry put before the first. -/
theorem list_run_prepend_broken :
    ¬ Run.Safe stepBoth Tracks [.append 1 'a', .prepend 2 'b']
      (DicoList.create 0 (some cmpPtr), PureList.create 0 (some cmpPtr)) := by
  intro hsafe
  obtain ⟨s, hs, as, -, hback, -, -, hcount, -⟩ := hsafe _ (List.prefix_refl _)
  obtain rfl := Except.ok.inj hs
  have hlen := congrArg List.length
    (hback.unique (show Path _ _ [1] from ⟨rfl, none, rfl, trivial⟩))
  rw [List.length_reverse, ← hcount] at hlen
  exact absurd hlen (by decide)

end Dico
